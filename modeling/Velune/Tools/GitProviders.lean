/-
Which provider and repository a git remote stands for
(`tools/git/providers.py`).

`urlparse` is modelled as far as the host's name goes; what it does with
characters outside ASCII and with brackets is a parameter (`UrlRules`).
-/
import Mathlib.Data.List.DropRight
import Velune.Domain
import Velune.Lib.SplitText

namespace Velune.Tools

open Lib

-- ===== texts

/-- `s.lstrip(c)`. -/
def lstripChar (c : Char) (s : PyStr) : PyStr := s.dropWhile (· == c)

/-- `s.rstrip(c)`. -/
def rstripChar (c : Char) (s : PyStr) : PyStr := s.rdropWhile (· == c)

/-- `s.removesuffix(suffix)`. -/
def removeSuffix (suffix s : PyStr) : PyStr :=
  if suffix.isSuffixOf s then s.take (s.length - suffix.length) else s

/-- `s.replace(old, new, 1)`, of characters. -/
def replaceFirst (old new : Char) : PyStr → PyStr
  | [] => []
  | c :: s => if c = old then new :: s else c :: replaceFirst old new s

/-- `s.rpartition(sep)[2]`, of a character. -/
def afterLast (sep : Char) (s : PyStr) : PyStr := s.rtakeWhile (· != sep)

-- ===== the host

def isAscii (c : Char) : Bool := c.toNat < 128

/-- What Python's tables say of texts outside ASCII, and of a host in
brackets. -/
structure UrlRules where
  lower : PyStr → PyStr
  checkNetloc : PyStr → Bool
  checkBracketed : PyStr → Bool

/-- `s.lower()`. -/
def UrlRules.lowered (u : UrlRules) (s : PyStr) : PyStr :=
  if s.all isAscii then s.map fun c => if Text.isUpper c then Char.ofNat (c.toNat + 32) else c
  else u.lower s

/-- The url without control characters and blanks before it, and without
tabs and line breaks. -/
def cleanedUrl (url : PyStr) : PyStr :=
  (url.dropWhile fun c => decide (c.toNat ≤ 32)).filter fun c => c != '\t' && c != '\r' && c != '\n'

def isSchemeChar (c : Char) : Bool := Text.isAlnum c || c == '+' || c == '-' || c == '.'

def afterScheme (url : PyStr) : PyStr :=
  let scheme := url.takeWhile (· != ':')
  match url.dropWhile (· != ':') with
  | _ :: rest =>
      if scheme.head?.any (fun c => Text.isLower c || Text.isUpper c) && scheme.all isSchemeChar then
        rest
      else url
  | [] => url

/-- `urlsplit(url).netloc`. -/
def netlocOf (url : PyStr) : PyStr :=
  match afterScheme url with
  | '/' :: '/' :: rest => rest.takeWhile fun c => c != '/' && c != '?' && c != '#'
  | _ => []

/-- `urlparse(url).hostname`, empty for none; nothing where it raises. -/
def hostOf (u : UrlRules) (netloc : PyStr) : Option PyStr :=
  if netloc.contains '[' != netloc.contains ']' then none
  else if netloc.contains '[' && !u.checkBracketed netloc then none
  else if !netloc.all isAscii && !u.checkNetloc netloc then none
  else
    let hostinfo := afterLast '@' netloc
    let host :=
      if hostinfo.contains '[' then
        ((hostinfo.dropWhile (· != '[')).drop 1).takeWhile (· != ']')
      else hostinfo.takeWhile (· != ':')
    some (u.lowered (host.takeWhile (· != '%')) ++ host.dropWhile (· != '%'))

/-- `git@host:path` as a url. -/
def normalizedUrl (url : PyStr) : PyStr :=
  if "git@".toList.isPrefixOf url then "https://".toList ++ replaceFirst ':' '/' (url.drop 4)
  else url

def remoteHostname (u : UrlRules) (url : PyStr) : PyStr :=
  ((hostOf u (netlocOf (cleanedUrl (normalizedUrl url)))).map u.lowered).getD []

-- ===== the provider

inductive Provider
  | github | gitlab
  deriving DecidableEq, Repr

def Provider.name : Provider → PyStr
  | .github => "github".toList
  | .gitlab => "gitlab".toList

structure Remotes where
  /-- `git remote get-url origin` -/
  origin : Option PyStr
  /-- `git remote`, or the text of its failure -/
  names : Except PyStr PyStr
  /-- `git remote get-url name`, or the text of its failure -/
  url : PyStr → Except PyStr PyStr

def Remotes.remoteUrl (r : Remotes) : Except PyStr PyStr :=
  match r.origin with
  | some url => .ok (Text.strip url)
  | none =>
      match r.names with
      | .error e => .error ("Cannot detect git remote: ".toList ++ e)
      | .ok out =>
          match Text.splitlines (Text.strip out) with
          | [] => .error "Cannot detect git remote: No remotes found".toList
          | first :: _ =>
              match r.url first with
              | .error e => .error ("Cannot detect git remote: ".toList ++ e)
              | .ok url => .ok (Text.strip url)

def gitlabHost (u : UrlRules) (base : Option PyStr) : PyStr :=
  match remoteHostname u (base.getD "https://gitlab.com".toList) with
  | [] => "gitlab.com".toList
  | host => host

/-- `url.split("github.com")[-1].lstrip("/").lstrip(":")`. -/
def githubSlug (url : PyStr) : PyStr :=
  lstripChar ':' (lstripChar '/' (lastPiece "github.com".toList url))

def gitlabSlug (url : PyStr) : PyStr :=
  if ".com".toList <:+: url then lstripChar '/' (lastPiece ".com".toList url)
  else lastPiece [':'] url

/-- `_detect_provider`; `base` is the environment's GitLab url. -/
def detectProvider (u : UrlRules) (base : Option PyStr) (r : Remotes) :
    Except PyStr (Provider × PyStr) :=
  match r.remoteUrl with
  | .error e => .error e
  | .ok url =>
      let url := removeSuffix ".git".toList (rstripChar '/' url)
      let host := remoteHostname u url
      if host = "github.com".toList then .ok (.github, githubSlug url)
      else if host = gitlabHost u base then .ok (.gitlab, gitlabSlug url)
      else
        .error ("Could not detect provider from remote URL: ".toList ++ url
          ++ ". Set VELUNE_GITHUB_TOKEN or VELUNE_GITLAB_TOKEN explicitly.".toList)

end Velune.Tools

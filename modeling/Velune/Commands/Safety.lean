/-
How a command string is classified before it may run
(`tools/safety.py`, `permissions/commands.py`, and the actions
`tools/terminal/execute.py` proposes for it): by patterns that are
searched in the text, and by a list of texts it may begin with.

The patterns keep the source's order and texts; an expression stands
beside the text it was compiled from, ignoring case. Groups are not
captured, as none is read. Which characters outside ASCII are letters and
digits is Unicode's, the parameter `Unicode`. What a command string runs is
its words, the first of them cut down to the program's name; its working
directory and timeout are left out.
-/
import Velune.Lib.Path
import Velune.Lib.Regex
import Velune.Lib.Shlex
import Velune.Permissions.Policy

namespace Velune.Commands

open Lib Lib.Regex

-- ===== characters

/-- Unicode's tables, outside ASCII; white space is no part of a word. -/
structure Unicode where
  word : Char → Bool
  digit : Char → Bool
  word_space : ∀ c, Text.isSpace c = true → word c = false

def isAscii (c : Char) : Bool := c.toNat < 128

/-- `\w`. -/
def Unicode.isWord (u : Unicode) (c : Char) : Bool :=
  if isAscii c then Text.isAlnum c || c == '_' else u.word c

/-- `\d`. -/
def Unicode.isDigit (u : Unicode) (c : Char) : Bool :=
  if isAscii c then Text.isDigit c else u.digit c

/-- The character `re` compares with an ASCII one when case is ignored. -/
def foldCase (c : Char) : Char :=
  if Text.isUpper c then Char.ofNat (c.toNat + 32)
  else if c == '\u0130' || c == '\u0131' then 'i'
  else if c == '\u017F' then 's'
  else if c == '\u212A' then 'k'
  else c

/-- A character of `str.lower`; one whose lower case is not ASCII is
kept, as the texts compared with are ASCII. -/
def lowerChar (c : Char) : List Char :=
  if Text.isUpper c then [Char.ofNat (c.toNat + 32)]
  else if c == '\u0130' then ['i', '\u0307']
  else if c == '\u212A' then ['k']
  else [c]

def lower (s : PyStr) : PyStr := s.flatMap lowerChar

-- ===== patterns

def lit (s : String) : Re := Re.cat (s.toList.map fun c => .cls fun d => foldCase d == foldCase c)

def isOneOf (s : String) (c : Char) : Bool := (s.toList.map foldCase).contains (foldCase c)

def letter (s : String) : Re := .cls (isOneOf s)

def words (ws : List String) : Re := Re.oneOf (ws.map lit)

/-- `.` without the flag that lets it cross lines. -/
def notNewline (c : Char) : Bool := c != '\n'

/-- `.*`. -/
def anything : Re := .many false notNewline

/-- `\s`. -/
def space : Re := .cls Text.isSpace

/-- `\s+`. -/
def spaces : Re := Re.plus Text.isSpace

/-- `\s*`. -/
def spaces0 : Re := .many false Text.isSpace

/-- `\b`. -/
def edge : Re := .wordEdge

structure Pattern where
  source : String
  re : Re

-- ===== safety

inductive ApprovalMode
  | safe | ask | block
  deriving DecidableEq, Repr

structure SafetyVerdict where
  mode : ApprovalMode
  reason : PyStr
  deriving DecidableEq, Repr

def pipedToShell (program : String) : Re :=
  Re.cat [edge, lit program, edge, .many false (fun c => c != '|'), lit "|", spaces0,
    Re.opt (lit "ba"), lit "sh", edge]

def dangerousPatterns (u : Unicode) : List Pattern := [
  ⟨"\\bsudo\\b", Re.cat [edge, lit "sudo", edge]⟩,
  ⟨"\\bsu\\s+[-\\w]", Re.cat [edge, lit "su", spaces, .cls fun c => c == '-' || u.isWord c]⟩,
  ⟨"\\bpkexec\\b", Re.cat [edge, lit "pkexec", edge]⟩,
  ⟨"\\bdoas\\b", Re.cat [edge, lit "doas", edge]⟩,
  ⟨"\\bptrace\\b", Re.cat [edge, lit "ptrace", edge]⟩,
  ⟨"\\bgdb\\b.*attach", Re.cat [edge, lit "gdb", edge, anything, lit "attach"]⟩,
  ⟨"\\bstrace\\b.*-p\\s*\\d",
    Re.cat [edge, lit "strace", edge, anything, lit "-p", spaces0, .cls u.isDigit]⟩,
  ⟨"\\brm\\s+.*-[rRfF]*[rR][fF]",
    Re.cat [edge, lit "rm", spaces, anything, lit "-", .many false (isOneOf "rRfF"), letter "rR",
      letter "fF"]⟩,
  ⟨"\\brm\\s+.*-[rRfF]*[fF][rR]",
    Re.cat [edge, lit "rm", spaces, anything, lit "-", .many false (isOneOf "rRfF"), letter "fF",
      letter "rR"]⟩,
  ⟨"rmdir\\s+/[sS]", Re.cat [lit "rmdir", spaces, lit "/", letter "sS"]⟩,
  ⟨"\\bshred\\b", Re.cat [edge, lit "shred", edge]⟩,
  ⟨"\\bwipe\\b", Re.cat [edge, lit "wipe", edge]⟩,
  ⟨"\\bsrm\\b", Re.cat [edge, lit "srm", edge]⟩,
  ⟨"\\bdd\\s+if=", Re.cat [edge, lit "dd", spaces, lit "if="]⟩,
  ⟨"\\bmkfs\\b", Re.cat [edge, lit "mkfs", edge]⟩,
  ⟨"\\bfdisk\\b", Re.cat [edge, lit "fdisk", edge]⟩,
  ⟨"\\bparted\\b", Re.cat [edge, lit "parted", edge]⟩,
  ⟨"\\bdiskpart\\b", Re.cat [edge, lit "diskpart", edge]⟩,
  ⟨"\\bformat\\s+[a-zA-Z]:",
    Re.cat [edge, lit "format", spaces, .cls fun c => Text.isLower (foldCase c), lit ":"]⟩,
  ⟨":\\(\\)\\s*\\\x7b", Re.cat [lit ":()", spaces0, lit "\x7b"]⟩,
  ⟨"\\bcurl\\b[^|]*\\|\\s*(?:ba)?sh\\b", pipedToShell "curl"⟩,
  ⟨"\\bwget\\b[^|]*\\|\\s*(?:ba)?sh\\b", pipedToShell "wget"⟩,
  ⟨"\\bfetch\\b[^|]*\\|\\s*(?:ba)?sh\\b", pipedToShell "fetch"⟩,
  ⟨"\\bbase64\\b[^|]*\\|\\s*(?:ba)?sh\\b", pipedToShell "base64"⟩,
  ⟨"(?i)powershell\\b.*-[eE]nc(?:odedCommand)?\\b",
    Re.cat [lit "powershell", edge, anything, lit "-", letter "eE", lit "nc",
      Re.opt (lit "odedCommand"), edge]⟩,
  ⟨"(?i)powershell\\b.*-[nN]o(?:P|Profile).*-[eE]xec",
    Re.cat [lit "powershell", edge, anything, lit "-", letter "nN", lit "o", words ["P", "Profile"],
      anything, lit "-", letter "eE", lit "xec"]⟩,
  ⟨"\\bnet\\s+(?:user|localgroup|accounts)\\b",
    Re.cat [edge, lit "net", spaces, words ["user", "localgroup", "accounts"], edge]⟩,
  ⟨"\\bnetplwiz\\b", Re.cat [edge, lit "netplwiz", edge]⟩,
  ⟨"\\breg\\s+(?:add|delete|import|export|copy|restore)\\b",
    Re.cat [edge, lit "reg", spaces,
      words ["add", "delete", "import", "export", "copy", "restore"], edge]⟩,
  ⟨"\\bregedit\\b", Re.cat [edge, lit "regedit", edge]⟩,
  ⟨"\\bsc\\s+(?:create|delete|config|failure)\\b",
    Re.cat [edge, lit "sc", spaces, words ["create", "delete", "config", "failure"], edge]⟩,
  ⟨"\\bschtasks\\s+/create\\b", Re.cat [edge, lit "schtasks", spaces, lit "/create", edge]⟩,
  ⟨"\\bnetsh\\s+(?:firewall|advfirewall|wlan)\\b",
    Re.cat [edge, lit "netsh", spaces, words ["firewall", "advfirewall", "wlan"], edge]⟩,
  ⟨"\\biptables\\s+-[AI]", Re.cat [edge, lit "iptables", spaces, lit "-", letter "AI"]⟩,
  ⟨"\\bpf(?:ctl)?\\b.*block", Re.cat [edge, lit "pf", Re.opt (lit "ctl"), edge, anything, lit "block"]⟩,
  ⟨"\\bsecretsdump\\b", Re.cat [edge, lit "secretsdump", edge]⟩,
  ⟨"\\bmimikatz\\b", Re.cat [edge, lit "mimikatz", edge]⟩,
  ⟨"\\bpwdump\\b", Re.cat [edge, lit "pwdump", edge]⟩,
  ⟨"\\bhashdump\\b", Re.cat [edge, lit "hashdump", edge]⟩]

def safePrefixes : List PyStr :=
  ["ls", "dir", "ls -", "dir /", "echo", "cat", "head", "tail", "more", "less", "type", "pwd", "cd",
    "which", "where", "whoami", "hostname", "uname", "date", "uptime", "id", "df", "du ", "free",
    "top -", "htop", "ps ", "ps aux", "ps -", "env", "set", "printenv", "git status", "git log",
    "git diff", "git branch", "git show", "git remote", "git fetch", "git stash list", "git tag",
    "git rev-parse", "git shortlog", "python --version", "python3 --version", "py --version",
    "pip list", "pip show", "pip check", "uv pip list", "uv pip show", "node --version",
    "npm --version", "yarn --version", "pnpm --version", "npx --version", "grep", "rg ", "find ",
    "fd ", "wc ", "stat ", "file ", "type ", "ver", "systeminfo", "ipconfig /all",
    "ipconfig /displaydns"].map String.toList

/-- A text without the `.exe` it may end with. -/
def dropExe (first : PyStr) : PyStr :=
  if ".exe".toList.isSuffixOf (lower first) then first.take (first.length - 4) else first

/-- `_normalize`: the text before the first blank without its `.exe`. -/
def normalize (command : PyStr) : PyStr :=
  dropExe (command.takeWhile (· != ' ')) ++ command.dropWhile (· != ' ')

/-- `prefix.rstrip()`. -/
def rstrip (s : PyStr) : PyStr := (s.reverse.dropWhile Text.isSpace).reverse

/-- A lowered text is an entry of the read-only list, or begins with it. -/
def beginsWith (lowered entry : PyStr) : Bool := lowered == rstrip entry || entry.isPrefixOf lowered

/-- `repr` of a text without quotes and without line breaks. -/
def pyRepr (s : PyStr) : PyStr :=
  '\'' :: (s.flatMap fun c => if c == '\\' then ['\\', '\\'] else [c]) ++ ['\'']

def classifyCommand (u : Unicode) (command : PyStr) : SafetyVerdict :=
  let stripped := Text.strip command
  let lowered := lower (normalize stripped)
  match (dangerousPatterns u).find? fun p => search u.isWord p.re stripped with
  | some p => ⟨.block, "Matches dangerous pattern: ".toList ++ pyRepr p.source.toList⟩
  | none =>
      if safePrefixes.any (beginsWith lowered) then ⟨.safe, "Known read-only command".toList⟩
      else ⟨.ask, "Unknown command — approval required".toList⟩

-- ===== commands

inductive CommandClass
  | readOnly | mutating | highRisk | blocked
  deriving DecidableEq, Repr

def CommandClass.value : CommandClass → PyStr
  | .readOnly => "read_only".toList
  | .mutating => "mutating".toList
  | .highRisk => "high_risk".toList
  | .blocked => "blocked".toList

def highRiskPatterns (u : Unicode) : List (Pattern × String) := [
  (⟨"\\bgit\\s+reset\\b.*--hard",
    Re.cat [edge, lit "git", spaces, lit "reset", edge, anything, lit "--hard"]⟩,
    "discards uncommitted changes"),
  (⟨"\\bgit\\s+clean\\b.*-\\w*[fdx]",
    Re.cat [edge, lit "git", spaces, lit "clean", edge, anything, lit "-", .many false u.isWord,
      letter "fdx"]⟩,
    "deletes untracked files"),
  (⟨"\\bgit\\s+push\\b.*(--force\\b|--force-with-lease|\\s-f\\b|\\s\\+\\S)",
    Re.cat [edge, lit "git", spaces, lit "push", edge, anything,
      Re.oneOf [Re.cat [lit "--force", edge], lit "--force-with-lease",
        Re.cat [space, lit "-f", edge],
        Re.cat [space, lit "+", .cls fun c => !Text.isSpace c]]]⟩,
    "rewrites remote history"),
  (⟨"\\bgit\\s+(checkout|restore)\\b.*(\\s--\\s+\\.|\\s\\.$|--source)",
    Re.cat [edge, lit "git", spaces, words ["checkout", "restore"], edge, anything,
      Re.oneOf [Re.cat [space, lit "--", spaces, lit "."], Re.cat [space, lit ".", .textEnd],
        lit "--source"]]⟩,
    "discards local edits"),
  (⟨"\\bgit\\s+branch\\b.*\\s-D\\b",
    Re.cat [edge, lit "git", spaces, lit "branch", edge, anything, space, lit "-D", edge]⟩,
    "deletes a branch"),
  (⟨"\\bgit\\s+(rebase|filter-branch|filter-repo)\\b",
    Re.cat [edge, lit "git", spaces, words ["rebase", "filter-branch", "filter-repo"], edge]⟩,
    "rewrites history"),
  (⟨"\\bgit\\s+stash\\s+(drop|clear)\\b",
    Re.cat [edge, lit "git", spaces, lit "stash", spaces, words ["drop", "clear"], edge]⟩,
    "deletes stashed work"),
  (⟨"\\bRemove-Item\\b.*-Recurse",
    Re.cat [edge, lit "Remove-Item", edge, anything, lit "-Recurse"]⟩,
    "recursive deletion"),
  (⟨"\\b(del|erase)\\b.*\\s/[sS]\\b",
    Re.cat [edge, words ["del", "erase"], edge, anything, space, lit "/", letter "sS", edge]⟩,
    "recursive deletion"),
  (⟨"\\brm\\s+.*-\\w*r",
    Re.cat [edge, lit "rm", spaces, anything, lit "-", .many false u.isWord, lit "r"]⟩,
    "recursive deletion"),
  (⟨"\\b(setx|Set-ItemProperty|New-ItemProperty|reg\\s+(add|delete))\\b",
    Re.cat [edge, Re.oneOf [lit "setx", lit "Set-ItemProperty", lit "New-ItemProperty",
      Re.cat [lit "reg", spaces, words ["add", "delete"]]], edge]⟩,
    "changes system settings"),
  (⟨"\\$env:\\w+\\s*=|\\[Environment\\]::SetEnvironmentVariable",
    Re.oneOf [Re.cat [lit "$env:", Re.plus u.isWord, spaces0, lit "="],
      lit "[Environment]::SetEnvironmentVariable"]⟩,
    "changes environment variables"),
  (⟨"\\b(winget|choco|scoop|apt|apt-get|yum|dnf|brew|pacman)\\s+install\\b",
    Re.cat [edge, words ["winget", "choco", "scoop", "apt", "apt-get", "yum", "dnf", "brew",
      "pacman"], spaces, lit "install", edge]⟩,
    "installs system software"),
  (⟨"\\b(npm|pnpm|yarn)\\s+(install|add|i)\\b.*(\\s-g\\b|--global)",
    Re.cat [edge, words ["npm", "pnpm", "yarn"], spaces, words ["install", "add", "i"], edge,
      anything, Re.oneOf [Re.cat [space, lit "-g", edge], lit "--global"]]⟩,
    "installs globally"),
  (⟨"\\bpip3?\\s+install\\b.*--user\\b",
    Re.cat [edge, lit "pip", Re.opt (lit "3"), spaces, lit "install", edge, anything,
      lit "--user", edge]⟩,
    "installs into the user site"),
  (⟨"\\b(npm|pnpm|yarn)\\s+publish\\b|\\btwine\\s+upload\\b|\\bcargo\\s+publish\\b",
    Re.oneOf [
      Re.cat [edge, words ["npm", "pnpm", "yarn"], spaces, lit "publish", edge],
      Re.cat [edge, lit "twine", spaces, lit "upload", edge],
      Re.cat [edge, lit "cargo", spaces, lit "publish", edge]]⟩,
    "publishes a package"),
  (⟨"\\bdocker\\s+(system|volume|image)\\s+prune\\b",
    Re.cat [edge, lit "docker", spaces, words ["system", "volume", "image"], spaces, lit "prune",
      edge]⟩,
    "deletes Docker data"),
  (⟨"\\b(netsh|New-NetFirewallRule|ufw|iptables)\\b",
    Re.cat [edge, words ["netsh", "New-NetFirewallRule", "ufw", "iptables"], edge]⟩,
    "changes network/firewall settings")]

def classify (u : Unicode) (command : PyStr) : CommandClass × PyStr :=
  let verdict := classifyCommand u command
  if verdict.mode = .block then (.blocked, verdict.reason)
  else
    match (highRiskPatterns u).find? fun p => search u.isWord p.1.re command with
    | some p => (.highRisk, p.2.toList)
    | none =>
        if verdict.mode = .safe then (.readOnly, "read-only command".toList)
        else (.mutating, "may change files or state".toList)

-- ===== actions

open Permissions in
/-- `ExecuteCommand.describe_actions`; `outside` says whether the
directory or a path of the command lies outside the boundary. -/
def describeActions (u : Unicode) (command : PyStr) (directory : Option PyStr) (outside : Bool) :
    List Action :=
  let (klass, why) := classify u command
  if klass = .readOnly then
    [{ actionType := .read, target := command, reason := why, outsideWorkspace := outside }]
  else
    [{ actionType := .runCommand
       target := command
       reason := why
       risk := if klass = .highRisk ∨ klass = .blocked then .high else .medium
       outsideWorkspace := outside
       blocked := klass == .blocked
       detail := directory.getD [] }]

-- ===== the words of a command (`execution/command_spec.py`)

/-- `CommandSpec`: the program's name and its arguments. -/
structure CommandSpec where
  executable : PyStr
  args : List PyStr
  deriving DecidableEq, Repr

def shellOperators : List PyStr :=
  [";".toList, "&&".toList, "||".toList, "|".toList, [Char.ofNat 96], "$( ".toList, "$(".toList,
    "$\x7b".toList]

def operatorIn (part : PyStr) : Option PyStr := shellOperators.find? fun bad => (Text.find bad part).isSome

/-- `CommandSpec.from_string`, and the text of the error it raises. -/
def fromString (cmd : PyStr) : Except PyStr CommandSpec :=
  match Shlex.split cmd with
  | none => .error "Malformed command string: No closing quotation".toList
  | some [] => .error "Empty command".toList
  | some (first :: args) =>
      match (first :: args).findSome? operatorIn with
      | some bad =>
          .error ("Shell operator '".toList ++ bad ++ "' found in command argument".toList)
      | none => .ok ⟨(PurePath.parse first).name, args⟩

/-- The plain spelling of a call: its words with single blanks between. -/
def CommandSpec.plain (spec : CommandSpec) : PyStr :=
  Text.join [' '] (spec.executable :: spec.args)

end Velune.Commands

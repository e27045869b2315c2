/-
When a remote's url is taken for its repository (`identified_iff`).

The host is read from the url's structure and is always right
(`remoteHostname_url`, `remoteHostname_scp`). The repository is what follows
the last place of a literal, or of a colon: it comes out whole exactly when
that place is the end of the host and nothing but the separator stands
between (`slug_of_cuts`); otherwise it is too short, holds a character no
path has, or has a slash too many (`Spoilt`).
-/
import Velune.Tools.GitProviders

namespace Velune.Tools

open Lib

-- ===== the remotes

def isNameChar (c : Char) : Bool := Text.isAlnum c || c == '.' || c == '_' || c == '-'

def isHostChar (c : Char) : Bool := Text.isLower c || Text.isDigit c || c == '.' || c == '-'

def UserChar (c : Char) : Prop := (33 ≤ c.toNat ∧ c.toNat < 127) ∧ c ∉ ['/', '?', '#', '[', ']', '@']

structure HostName where
  text : PyStr
  ok : ∀ c ∈ text, isHostChar c = true

structure RepoPath where
  first : PyStr
  rest : List PyStr
  rest_ne : rest ≠ []
  ok : ∀ s ∈ first :: rest, s ≠ [] ∧ ∀ c ∈ s, isNameChar c = true

def RepoPath.text (path : RepoPath) : PyStr := path.first ++ path.rest.flatMap fun s => '/' :: s

inductive Scheme
  | https | ssh
  deriving DecidableEq, Repr

def Scheme.text : Scheme → PyStr
  | .https => "https".toList
  | .ssh => "ssh".toList

/-- `scheme://user@host:port/path`, or `git@host:path`. -/
inductive Form
  | url (scheme : Scheme) (user port : Option PyStr)
  | scp

def Form.Ok : Form → Prop
  | .url _ user port => (∀ x ∈ user, ∀ c ∈ x, UserChar c)
      ∧ ∀ x ∈ port, x ≠ [] ∧ ∀ c ∈ x, Text.isDigit c = true
  | .scp => True

def authority (user port : Option PyStr) (host : PyStr) : PyStr :=
  user.elim [] (· ++ ['@']) ++ (host ++ port.elim [] (':' :: ·))

def Form.front (host : PyStr) : Form → PyStr
  | .url scheme user port => scheme.text ++ "://".toList ++ authority user port host ++ ['/']
  | .scp => "git@".toList ++ host ++ [':']

structure Spelling where
  form : Form
  form_ok : form.Ok
  dotGit : Bool
  slash : Bool

def Spelling.url (sp : Spelling) (host path : PyStr) : PyStr :=
  sp.form.front host ++ path ++ (if sp.dotGit then ".git".toList else [])
    ++ if sp.slash then ['/'] else []

def providerOf (host : PyStr) : Provider := if host = "github.com".toList then .github else .gitlab

/-- Nothing but a separator stands between the last literal, or the last
colon, and the path. -/
def Cuts (form : Form) (host path : PyStr) : Prop :=
  if host = "github.com".toList then
    ¬ "github.com".toList <:+: path ∧ ∀ scheme user port, form = .url scheme user port → port = none
  else
    ¬ ".com".toList <:+: path ∧ match form with
      | .url _ _ port => port = none ∧ ".com".toList <:+ host
      | .scp => ¬ ".com".toList <:+: host

-- ===== characters

variable {c : Char} {host : HostName} {user port : Option PyStr} {core path : PyStr}

theorem userChar_of_name (h : isNameChar c = true) : UserChar c := by
  constructor
  · simp only [isNameChar, Text.isAlnum, Text.isLower, Text.isUpper, Text.isDigit, Bool.or_eq_true,
      Bool.and_eq_true, decide_eq_true_eq, beq_iff_eq, Char.le_def, UInt32.le_iff_toNat_le] at h
    have hval : c.toNat = c.val.toNat := rfl
    rcases h with ((((h | h) | h) | rfl) | rfl) | rfl
    · have h₁ : 'a'.val.toNat = 97 := rfl
      have h₂ : 'z'.val.toNat = 122 := rfl
      omega
    · have h₁ : 'A'.val.toNat = 65 := rfl
      have h₂ : 'Z'.val.toNat = 90 := rfl
      omega
    · have h₁ : '0'.val.toNat = 48 := rfl
      have h₂ : '9'.val.toNat = 57 := rfl
      omega
    · decide
    · decide
    · decide
  · intro hmem
    simp only [List.mem_cons, List.not_mem_nil, or_false] at hmem
    rcases hmem with rfl | rfl | rfl | rfl | rfl | rfl
    · cases h
    · cases h
    · cases h
    · cases h
    · cases h
    · cases h

theorem isNameChar_of_host (h : isHostChar c = true) : isNameChar c = true := by
  simp only [isHostChar, isNameChar, Text.isAlnum, Bool.or_eq_true] at h ⊢
  tauto

theorem isNameChar_of_digit (h : Text.isDigit c = true) : isNameChar c = true := by
  simp only [isNameChar, Text.isAlnum, h, Bool.or_true, Bool.true_or]

theorem isUpper_of_host (h : isHostChar c = true) : Text.isUpper c = false := by
  by_contra hupper
  simp only [isHostChar, Text.isLower, Text.isUpper, Text.isDigit, Bool.or_eq_true, Bool.not_eq_false,
    Bool.and_eq_true, decide_eq_true_eq, beq_iff_eq, Char.le_def, UInt32.le_iff_toNat_le] at h hupper
  have h₁ : 'a'.val.toNat = 97 := rfl
  have h₂ : 'A'.val.toNat = 65 := rfl
  have h₃ : 'Z'.val.toNat = 90 := rfl
  have h₄ : '9'.val.toNat = 57 := rfl
  rcases h with ((h | h) | rfl) | rfl
  · omega
  · omega
  · exact absurd hupper (by decide)
  · exact absurd hupper (by decide)

def PathChar (c : Char) : Prop := isNameChar c = true ∨ c = '/'

theorem pathChar_ne {c d : Char} (h : PathChar c) (hd : isNameChar d = false) (hslash : d ≠ '/') :
    c ≠ d := by
  intro heq
  rcases h with h | h
  · rw [heq, hd] at h
    cases h
  · exact hslash (heq ▸ h)

-- ===== the path

theorem path_chars (path : RepoPath) : ∀ c ∈ path.text, PathChar c := by
  intro c hc
  rcases List.mem_append.1 hc with hc | hc
  · exact .inl ((path.ok _ (List.mem_cons_self ..)).2 c hc)
  · obtain ⟨s, hs, hc⟩ := List.mem_flatMap.1 hc
    rcases List.mem_cons.1 hc with rfl | hc
    · exact .inr rfl
    · exact .inl ((path.ok _ (List.mem_cons_of_mem _ hs)).2 c hc)

theorem path_slash (path : RepoPath) : ∃ a b, path.text = a ++ '/' :: b := by
  obtain ⟨s, rest, hrest⟩ := List.exists_cons_of_ne_nil path.rest_ne
  refine ⟨path.first, s ++ rest.flatMap fun s => '/' :: s, ?_⟩
  rw [RepoPath.text, hrest, List.flatMap_cons]
  rfl

theorem path_head (path : RepoPath) : ∃ c s, path.text = c :: s ∧ isNameChar c = true := by
  obtain ⟨hne, hok⟩ := path.ok path.first (List.mem_cons_self ..)
  obtain ⟨c, s, hfirst⟩ := List.exists_cons_of_ne_nil hne
  refine ⟨c, s ++ path.rest.flatMap fun s => '/' :: s, ?_, hok c (hfirst ▸ List.mem_cons_self ..)⟩
  rw [RepoPath.text, hfirst, List.cons_append]

theorem segments_last : ∀ (rest : List PyStr) (first : PyStr),
    (∀ s ∈ first :: rest, s ≠ [] ∧ ∀ c ∈ s, isNameChar c = true) →
    ∃ s c, first ++ rest.flatMap (fun s => '/' :: s) = s ++ [c] ∧ isNameChar c = true := by
  intro rest
  induction rest with
  | nil =>
      intro first hok
      obtain ⟨hne, hchars⟩ := hok first (List.mem_cons_self ..)
      refine ⟨first.dropLast, first.getLast hne, ?_, hchars _ (List.getLast_mem hne)⟩
      rw [List.flatMap_nil, List.append_nil, List.dropLast_append_getLast]
  | cons next rest ih =>
      intro first hok
      obtain ⟨s, c, heq, hc⟩ := ih next fun s hs => hok s (List.mem_cons_of_mem first hs)
      refine ⟨first ++ '/' :: s, c, ?_, hc⟩
      rw [List.flatMap_cons, List.cons_append, heq, List.append_assoc, List.cons_append]

/-- What is left of a path once one `.git` is taken off. -/
structure CoreOf (core path : PyStr) : Prop where
  chars : ∀ c ∈ core, PathChar c
  head : ∃ c s, core = c :: s ∧ isNameChar c = true
  slashes : core.count '/' = path.count '/'
  length : core.length ≤ path.length

theorem coreOf_self (path : RepoPath) : CoreOf path.text path.text where
  chars := path_chars path
  head := path_head path
  slashes := rfl
  length := Nat.le_refl _

theorem slash_not_git : '/' ∉ ".git".toList := by decide

theorem removeSuffix_of_suffix {suffix s : PyStr} : removeSuffix suffix (s ++ suffix) = s := by
  have h : suffix.isSuffixOf (s ++ suffix) = true :=
    List.isSuffixOf_iff_suffix.2 (List.suffix_append s suffix)
  rw [removeSuffix, if_pos h, List.length_append, Nat.add_sub_cancel, List.take_left]

theorem removeSuffix_of_not {suffix s : PyStr} (h : ¬ suffix <:+ s) : removeSuffix suffix s = s :=
  if_neg fun hs => h (List.isSuffixOf_iff_suffix.1 hs)

/-- A `.git` at the end is the path's. -/
theorem coreOf_removeSuffix (path : RepoPath) (front : PyStr) :
    ∃ core, removeSuffix ".git".toList (front ++ path.text) = front ++ core ∧ CoreOf core path.text
      ∧ (core = path.text ↔ ¬ ".git".toList <:+ path.text) := by
  obtain ⟨a, b, hslash⟩ := path_slash path
  by_cases hgit : ".git".toList <:+ path.text
  · obtain ⟨core, hcore⟩ := hgit
    have hmem : '/' ∈ core := by
      have hmem : '/' ∈ core ++ ".git".toList := by
        rw [hcore, hslash]
        simp
      exact (List.mem_append.1 hmem).resolve_right slash_not_git
    have hshort : core ≠ path.text := by
      intro heq
      have hlen := congrArg List.length hcore
      rw [List.length_append, heq] at hlen
      exact absurd hlen (by
        have hfour : ".git".toList.length = 4 := rfl
        omega)
    refine ⟨core, ?_, ⟨fun c hc => ?_, ?_, ?_, ?_⟩, ?_⟩
    · rw [← hcore, ← List.append_assoc, removeSuffix_of_suffix]
    · exact path_chars path c (hcore ▸ List.mem_append_left _ hc)
    · obtain ⟨c, s, hhead, hc⟩ := path_head path
      obtain ⟨d, t, rfl⟩ := List.exists_cons_of_ne_nil (List.ne_nil_of_mem hmem)
      rw [hhead, List.cons_append] at hcore
      obtain ⟨rfl, -⟩ := List.cons.inj hcore
      exact ⟨d, t, rfl, hc⟩
    · rw [← hcore, List.count_append, List.count_eq_zero_of_not_mem slash_not_git, Nat.add_zero]
    · rw [← hcore, List.length_append]
      omega
    · exact iff_of_false hshort (not_not_intro ⟨core, hcore⟩)
  · refine ⟨path.text, removeSuffix_of_not fun h => hgit ?_, coreOf_self path, iff_of_true rfl hgit⟩
    rw [hslash, ← List.append_assoc, suffix_append_cons slash_not_git] at h
    rwa [hslash, suffix_append_cons slash_not_git]

theorem rstripChar_of_last {c d : Char} (h : d ≠ c) (s : PyStr) :
    rstripChar c (s ++ [d]) = s ++ [d] := by
  rw [rstripChar, List.rdropWhile_concat_neg]
  simpa using h

theorem rstripChar_concat (c : Char) (s : PyStr) : rstripChar c (s ++ [c]) = rstripChar c s := by
  rw [rstripChar, List.rdropWhile_concat_pos]
  · rfl
  · exact beq_self_eq_true c

theorem bare_url (sp : Spelling) (host : PyStr) (path : RepoPath) :
    ∃ core, removeSuffix ".git".toList (rstripChar '/' (sp.url host path.text))
        = sp.form.front host ++ core
      ∧ CoreOf core path.text
      ∧ (core = path.text ↔ sp.dotGit = true ∨ ¬ ".git".toList <:+ path.text) := by
  have hstrip : rstripChar '/' (sp.url host path.text)
      = sp.form.front host ++ path.text ++ if sp.dotGit then ".git".toList else [] := by
    have hlast : ∃ s d, sp.form.front host ++ path.text ++ (if sp.dotGit then ".git".toList else [])
        = s ++ [d] ∧ d ≠ '/' := by
      split
      next => exact ⟨sp.form.front host ++ path.text ++ ".gi".toList, 't', by simp, by decide⟩
      next =>
        obtain ⟨s, c, heq, hc⟩ := segments_last path.rest path.first path.ok
        refine ⟨sp.form.front host ++ s, c, ?_, fun hslash => ?_⟩
        · rw [List.append_nil, RepoPath.text, heq, List.append_assoc]
        · rw [hslash] at hc
          cases hc
    obtain ⟨s, d, heq, hd⟩ := hlast
    rw [Spelling.url, heq]
    split
    next => rw [rstripChar_concat, rstripChar_of_last hd]
    next => rw [List.append_nil, rstripChar_of_last hd]
  rw [hstrip]
  by_cases hdot : sp.dotGit = true
  · rw [if_pos hdot]
    exact ⟨path.text, removeSuffix_of_suffix, coreOf_self path, iff_of_true rfl (.inl hdot)⟩
  · rw [if_neg hdot, List.append_nil]
    obtain ⟨core, heq, hcore, hsame⟩ := coreOf_removeSuffix path (sp.form.front host)
    refine ⟨core, heq, hcore, hsame.trans ?_⟩
    constructor
    · exact .inr
    · exact fun h => h.resolve_left hdot

-- ===== the host

theorem pathChar_plain (h : PathChar c) : 33 ≤ c.toNat := by
  rcases h with h | rfl
  · exact (userChar_of_name h).1.1
  · decide

theorem userChar_host (h : c ∈ host.text) : UserChar c :=
  userChar_of_name (isNameChar_of_host (host.ok c h))

theorem authority_chars (host : HostName)
    (h : (Form.url .https user port).Ok) (hc : c ∈ authority user port host.text) :
    UserChar c ∨ c = '@' := by
  rcases List.mem_append.1 hc with hc | hc
  · cases user with
    | none => cases hc
    | some x =>
        rcases List.mem_append.1 hc with hc | hc
        · exact .inl (h.1 x rfl c hc)
        · exact .inr (List.mem_singleton.1 hc)
  · rcases List.mem_append.1 hc with hc | hc
    · exact .inl (userChar_host hc)
    · cases port with
      | none => cases hc
      | some x =>
          rcases List.mem_cons.1 hc with rfl | hc
          · exact .inl (by constructor <;> decide)
          · exact .inl (userChar_of_name (isNameChar_of_digit ((h.2 x rfl).2 c hc)))

theorem authority_not_mem (host : HostName)
    (h : (Form.url .https user port).Ok) {d : Char} (hd : d ∈ ['/', '?', '#', '[', ']']) :
    d ∉ authority user port host.text := by
  intro hmem
  rcases authority_chars host h hmem with hchar | rfl
  · refine hchar.2 ?_
    have hsub : ['/', '?', '#', '[', ']'] ⊆ ['/', '?', '#', '[', ']', '@'] := by simp
    exact hsub hd
  · exact absurd hd (by decide)

theorem takeWhile_all_append {p : Char → Bool} {a : PyStr} {d : Char} {r : PyStr}
    (ha : ∀ c ∈ a, p c = true) (hd : p d = false) : (a ++ d :: r).takeWhile p = a := by
  rw [List.takeWhile_append_of_pos ha, List.takeWhile_cons_of_neg (by rw [hd]; decide),
    List.append_nil]

theorem takeWhile_all {p : Char → Bool} {a : PyStr} (ha : ∀ c ∈ a, p c = true) :
    a.takeWhile p = a := List.takeWhile_eq_self_iff.2 ha

theorem bne_of_not_mem {a : PyStr} {d : Char} (h : d ∉ a) : ∀ c ∈ a, (c != d) = true :=
  fun _ hc => bne_iff_ne.2 fun heq => h (heq ▸ hc)

theorem afterLast_append {sep : Char} {r : PyStr} (hr : sep ∉ r) (a : PyStr) :
    afterLast sep (a ++ sep :: r) = r := by
  rw [afterLast, List.rtakeWhile, List.reverse_append, List.reverse_cons, List.append_assoc,
    List.singleton_append, takeWhile_all_append, List.reverse_reverse]
  · exact bne_of_not_mem fun h => hr (List.mem_reverse.1 h)
  · exact bne_self_eq_false sep

theorem afterLast_of_not_mem {sep : Char} {s : PyStr} (h : sep ∉ s) : afterLast sep s = s :=
  List.rtakeWhile_eq_self_iff.2 (bne_of_not_mem h)

theorem lowered_host (u : UrlRules) (host : HostName) : u.lowered host.text = host.text := by
  have hascii : host.text.all isAscii = true := by
    rw [List.all_eq_true]
    intro c hc
    have hlt := (userChar_host hc).1.2
    exact decide_eq_true (by omega)
  rw [UrlRules.lowered, if_pos hascii]
  refine (List.map_congr_left fun c hc => ?_).trans (List.map_id _)
  rw [isUpper_of_host (host.ok c hc)]
  rfl

theorem host_not_mem {d : Char} (hd : isHostChar d = false) : d ∉ host.text := by
  intro hmem
  rw [host.ok d hmem] at hd
  cases hd

theorem hostOf_authority (u : UrlRules) (host : HostName) (h : (Form.url .https user port).Ok) :
    hostOf u (authority user port host.text) = some host.text := by
  have hopen : (authority user port host.text).contains '[' = false := by
    rw [← Bool.not_eq_true, List.contains_iff_mem]
    exact authority_not_mem host h (by decide)
  have hclose : (authority user port host.text).contains ']' = false := by
    rw [← Bool.not_eq_true, List.contains_iff_mem]
    exact authority_not_mem host h (by decide)
  have hascii : (authority user port host.text).all isAscii = true := by
    rw [List.all_eq_true]
    intro c hc
    rcases authority_chars host h hc with hc | rfl
    · have hlt := hc.1.2
      exact decide_eq_true (by omega)
    · decide
  have hback : '@' ∉ host.text ++ port.elim [] (':' :: ·) := by
    intro hmem
    rcases List.mem_append.1 hmem with hmem | hmem
    · exact host_not_mem (by decide) hmem
    · cases port with
      | none => cases hmem
      | some x =>
          rcases List.mem_cons.1 hmem with heq | hmem
          · cases heq
          · exact absurd ((h.2 x rfl).2 _ hmem) (by decide)
  have hinfo : afterLast '@' (authority user port host.text)
      = host.text ++ port.elim [] (':' :: ·) := by
    cases user with
    | none => exact afterLast_of_not_mem hback
    | some x =>
        have happend : authority (some x) port host.text
            = x ++ '@' :: (host.text ++ port.elim [] (':' :: ·)) := List.append_assoc ..
        rw [happend, afterLast_append hback]
  have hinner : (host.text ++ port.elim [] (':' :: ·)).contains '[' = false := by
    rw [← Bool.not_eq_true, List.contains_iff_mem]
    intro hmem
    exact authority_not_mem host h (d := '[') (by decide) (List.mem_append_right _ hmem)
  have hname : (host.text ++ port.elim [] (':' :: ·)).takeWhile (· != ':') = host.text := by
    have hcolon := bne_of_not_mem (@host_not_mem host ':' (by decide))
    cases port with
    | none =>
        show (host.text ++ []).takeWhile _ = _
        rw [List.append_nil, takeWhile_all hcolon]
    | some x => exact takeWhile_all_append hcolon rfl
  have hpercent := bne_of_not_mem (@host_not_mem host '%' (by decide))
  simp only [hostOf, hopen, hclose, hascii, hinfo, hinner, hname, bne_self_eq_false, Bool.false_and,
    Bool.not_true, Bool.false_eq_true, if_false]
  rw [takeWhile_all hpercent, lowered_host, List.dropWhile_eq_nil_iff.2 hpercent, List.append_nil]

theorem cleanedUrl_of_plain {url : PyStr} (h : ∀ c ∈ url, 33 ≤ c.toNat) : cleanedUrl url = url := by
  have hdrop : (url.dropWhile fun c => decide (c.toNat ≤ 32)) = url := by
    cases url with
    | nil => rfl
    | cons c s =>
        have hc := h c (List.mem_cons_self ..)
        exact List.dropWhile_cons_of_neg (by
          rw [decide_eq_true_eq]
          omega)
  rw [cleanedUrl, hdrop, List.filter_eq_self]
  intro c hc
  have hc' := h c hc
  simp only [Bool.and_eq_true, bne_iff_ne]
  refine ⟨⟨?_, ?_⟩, ?_⟩
  · rintro rfl
    exact absurd hc' (by decide)
  · rintro rfl
    exact absurd hc' (by decide)
  · rintro rfl
    exact absurd hc' (by decide)

theorem netlocOf_url (scheme : Scheme) (host : HostName)
    (h : (Form.url .https user port).Ok) (core : PyStr) :
    netlocOf (scheme.text ++ "://".toList ++ authority user port host.text ++ ['/'] ++ core)
      = authority user port host.text := by
  have hafter : netlocOf
      (scheme.text ++ "://".toList ++ authority user port host.text ++ ['/'] ++ core)
      = (authority user port host.text ++ '/' :: core).takeWhile
          fun c => c != '/' && c != '?' && c != '#' := by
    rw [List.append_assoc, List.append_assoc _ (authority user port host.text)]
    cases scheme with
    | https => rfl
    | ssh => rfl
  rw [hafter]
  refine takeWhile_all_append (fun c hc => ?_) rfl
  simp only [Bool.and_eq_true, bne_iff_ne]
  refine ⟨⟨?_, ?_⟩, ?_⟩
  · rintro rfl
    exact authority_not_mem host h (by decide) hc
  · rintro rfl
    exact authority_not_mem host h (by decide) hc
  · rintro rfl
    exact authority_not_mem host h (by decide) hc

theorem front_plain {form : Form} (hform : form.Ok) (host : HostName) {core : PyStr}
    (hcore : ∀ c ∈ core, PathChar c) : ∀ c ∈ form.front host.text ++ core, 33 ≤ c.toNat := by
  intro c hc
  rcases List.mem_append.1 hc with hc | hc
  · cases form with
    | scp =>
        rcases List.mem_append.1 hc with hc | hc
        · rcases List.mem_append.1 hc with hc | hc
          · exact (Text.all_mem (p := fun c => 33 ≤ c.toNat) (by decide) : ∀ c ∈ "git@".toList, _) c hc
          · exact (userChar_host hc).1.1
        · rw [List.mem_singleton.1 hc]
          decide
    | url scheme user port =>
        rcases List.mem_append.1 hc with hc | hc
        · rcases List.mem_append.1 hc with hc | hc
          · cases scheme with
            | https => exact (Text.all_mem (p := fun c => 33 ≤ c.toNat) (by decide) :
                ∀ c ∈ "https".toList ++ "://".toList, _) c hc
            | ssh => exact (Text.all_mem (p := fun c => 33 ≤ c.toNat) (by decide) :
                ∀ c ∈ "ssh".toList ++ "://".toList, _) c hc
          · rcases authority_chars host hform hc with hc | rfl
            · exact hc.1.1
            · decide
        · rw [List.mem_singleton.1 hc]
          decide
  · exact pathChar_plain (hcore c hc)

theorem replaceFirst_append {old new : Char} {r : PyStr} : ∀ {a : PyStr}, old ∉ a →
    replaceFirst old new (a ++ old :: r) = a ++ new :: r := by
  intro a
  induction a with
  | nil =>
      intro _
      rw [List.nil_append, replaceFirst, if_pos rfl, List.nil_append]
  | cons c a ih =>
      intro h
      rw [List.cons_append, replaceFirst, if_neg fun heq : c = old => h (heq ▸ List.mem_cons_self ..),
        ih fun hmem => h (List.mem_cons_of_mem c hmem), List.cons_append]

theorem normalizedUrl_url (host core : PyStr) (scheme : Scheme) (user port : Option PyStr) :
    normalizedUrl (Form.front host (.url scheme user port) ++ core)
      = Form.front host (.url scheme user port) ++ core := by
  cases scheme with
  | https => rfl
  | ssh => rfl

theorem normalizedUrl_scp (host : HostName) (core : PyStr) :
    normalizedUrl (Form.front host.text .scp ++ core)
      = Form.front host.text (.url .https none none) ++ core := by
  have hurl : normalizedUrl (Form.front host.text .scp ++ core)
      = "https://".toList ++ replaceFirst ':' '/' (host.text ++ [':'] ++ core) := rfl
  have hfront : Form.front host.text (.url .https none none) ++ core
      = "https://".toList ++ (host.text ++ [] ++ ['/'] ++ core) := rfl
  rw [hurl, hfront, List.append_assoc, List.singleton_append,
    replaceFirst_append (host_not_mem (by decide)), List.append_nil, List.append_assoc,
    List.singleton_append]

theorem remoteHostname_front (u : UrlRules) {form : Form} (hform : form.Ok) (host : HostName)
    {core : PyStr} (hcore : ∀ c ∈ core, PathChar c) :
    remoteHostname u (form.front host.text ++ core) = host.text := by
  have hurl : ∀ scheme user port, (Form.url scheme user port).Ok →
      ((hostOf u (netlocOf (cleanedUrl (Form.front host.text (.url scheme user port) ++ core)))).map
        u.lowered).getD [] = host.text := by
    intro scheme user port hok
    rw [cleanedUrl_of_plain (front_plain hok host hcore), Form.front,
      netlocOf_url scheme host hok, hostOf_authority u host hok]
    exact lowered_host u host
  cases form with
  | url scheme user port =>
      rw [remoteHostname, normalizedUrl_url]
      exact hurl scheme user port hform
  | scp =>
      rw [remoteHostname, normalizedUrl_scp]
      exact hurl .https none none ⟨fun x hx => (by cases hx), fun x hx => (by cases hx)⟩

-- ===== the slug

/-- Not the path, whatever `.git` was taken for. -/
def Spoilt (slug core : PyStr) : Prop :=
  slug.length < core.length ∨ (∃ c ∈ slug, ¬ PathChar c) ∨ core.count '/' < slug.count '/'

theorem Spoilt.ne {slug core : PyStr} {path : RepoPath} (h : Spoilt slug core)
    (hcore : CoreOf core path.text) : slug ≠ path.text := by
  rintro rfl
  rcases h with h | h | h
  · exact absurd hcore.length (not_le.2 h)
  · obtain ⟨c, hc, hchar⟩ := h
    exact hchar (path_chars path c hc)
  · exact absurd hcore.slashes.le (not_le.2 (by rwa [hcore.slashes] at h ⊢))

theorem not_pathChar (h : isNameChar c = false) (hslash : c ≠ '/') : ¬ PathChar c :=
  fun hc => pathChar_ne hc h hslash rfl

theorem spoilt_of_slash (x core : PyStr) : Spoilt (x ++ '/' :: core) core := by
  refine .inr (.inr ?_)
  rw [List.count_append, List.count_cons_self]
  omega

theorem lstripChar_length_le (c : Char) (s : PyStr) : (lstripChar c s).length ≤ s.length :=
  (List.dropWhile_suffix _).length_le

theorem lstripChar_of_head {c d : Char} {s : PyStr} (h : d ≠ c) : lstripChar c (d :: s) = d :: s :=
  List.dropWhile_cons_of_neg (by simpa using h)

theorem lstripChar_cons (c : Char) (s : PyStr) : lstripChar c (c :: s) = lstripChar c s :=
  List.dropWhile_cons_of_pos (beq_self_eq_true c)

theorem lstripChar_append {x r : PyStr} (hne : x ≠ []) (hx : c ∉ x) :
    lstripChar c (x ++ r) = x ++ r := by
  obtain ⟨d, x, rfl⟩ := List.exists_cons_of_ne_nil hne
  exact lstripChar_of_head fun heq : d = c => hx (heq ▸ List.mem_cons_self ..)

theorem lstripChar_core (hc : isNameChar c = false)
    (h : CoreOf core path) : lstripChar c core = core := by
  obtain ⟨d, s, rfl, hd⟩ := h.head
  exact lstripChar_of_head fun heq => by
    rw [heq, hc] at hd
    cases hd

theorem core_not_mem (hc : isNameChar c = false) (hslash : c ≠ '/')
    (h : CoreOf core path) : c ∉ core := fun hmem => pathChar_ne (h.chars c hmem) hc hslash rfl

-- The two literals, apart.

theorem com_eq : ".com".toList = '.' :: "com".toList := rfl

theorem github_eq : "github.com".toList = 'g' :: "ithub.com".toList := rfl

theorem com_first : '.' ∉ "com".toList := by decide

theorem github_first : 'g' ∉ "ithub.com".toList := by decide

def Form.lead (host : PyStr) : Form → PyStr
  | .url scheme user port => scheme.text ++ "://".toList ++ authority user port host
  | .scp => "git@".toList ++ host

def Form.separator : Form → Char
  | .url _ _ _ => '/'
  | .scp => ':'

theorem front_eq (form : Form) (host : PyStr) : form.front host = form.lead host ++ [form.separator] := by
  cases form with
  | url scheme user port => rfl
  | scp => rfl

theorem front_append (form : Form) (host core : PyStr) :
    form.front host ++ core = form.lead host ++ form.separator :: core := by
  rw [front_eq, List.append_assoc, List.singleton_append]

theorem spoilt_of_infix {t : PyStr} (hc : c ∉ t) {core : PyStr} (h : c :: t <:+: core)
    (a : PyStr) {slug : PyStr} (hslug : slug.length ≤ (lastPiece (c :: t) (a ++ core)).length) :
    Spoilt slug core := by
  have hlast := length_lastPiece_lt hc h
  rw [lastPiece_append hc h] at hslug
  exact .inl (by omega)

-- ------------------------------------------------------------------ on github.com

theorem githubSlug_of_infix {core : PyStr} (h : "github.com".toList <:+: core) (a : PyStr) :
    Spoilt (githubSlug (a ++ core)) core :=
  spoilt_of_infix github_first h a
    ((lstripChar_length_le _ _).trans (lstripChar_length_le _ _))

theorem githubSlug_of_free {core : PyStr} (h : ¬ "github.com".toList <:+: core) (a : PyStr)
    {sep : Char} (hsep : sep ∉ "github.com".toList) :
    githubSlug (a ++ "github.com".toList ++ sep :: core)
      = lstripChar ':' (lstripChar '/' (sep :: core)) := by
  have hfree : ¬ "github.com".toList <:+: sep :: core := fun hin =>
    ((@infix_append_cons _ _ [] _ _ hsep).1 hin).elim (by decide) h
  rw [githubSlug, github_eq, lastPiece_append_sep github_first hfree]

theorem githubSlug_port {core : PyStr} (h : ¬ "github.com".toList <:+: core) (a : PyStr)
    {port : PyStr} (hne : port ≠ [])
    (hport : ∀ c ∈ port, Text.isDigit c = true) :
    Spoilt (githubSlug (a ++ "github.com".toList ++ ':' :: port ++ '/' :: core)) core := by
  have hdigit : ∀ d, Text.isDigit d = false → d ∉ port := fun d hd hmem => by
    rw [hport d hmem] at hd
    cases hd
  have hfree : ¬ "github.com".toList <:+: ':' :: (port ++ '/' :: core) := by
    intro hin
    rcases (@infix_append_cons _ _ [] _ ':' (by decide)).1 hin with hin | hin
    · exact absurd hin (by decide)
    · rcases (infix_append_cons (by decide)).1 hin with hin | hin
      · exact hdigit 'g' (by decide) (hin.subset (by decide))
      · exact h hin
  have hslug : githubSlug (a ++ "github.com".toList ++ ':' :: port ++ '/' :: core)
      = port ++ '/' :: core := by
    rw [githubSlug, List.append_assoc, List.cons_append, github_eq,
      lastPiece_append_sep github_first hfree, lstripChar_of_head (by decide), lstripChar_cons,
      lstripChar_append hne (hdigit ':' (by decide))]
  rw [hslug]
  exact spoilt_of_slash port core

theorem githubSlug_front {form : Form} (hform : form.Ok) (hcore : CoreOf core path) :
    (Cuts form "github.com".toList core →
        githubSlug (form.front "github.com".toList ++ core) = core)
      ∧ (¬ Cuts form "github.com".toList core →
        Spoilt (githubSlug (form.front "github.com".toList ++ core)) core) := by
  by_cases hin : "github.com".toList <:+: core
  · have hcuts : ¬ Cuts form "github.com".toList core := fun h => by
      unfold Cuts at h
      rw [if_pos rfl] at h
      exact h.1 hin
    exact ⟨fun h => absurd h hcuts, fun _ => githubSlug_of_infix hin _⟩
  · unfold Cuts
    rw [if_pos rfl]
    have hcolon := lstripChar_core (c := ':') (by decide) hcore
    have hslash := lstripChar_core (c := '/') (by decide) hcore
    cases form with
    | scp =>
        have hslug : githubSlug (Form.front "github.com".toList .scp ++ core) = core := by
          have hfront : Form.front "github.com".toList .scp ++ core
              = "git@".toList ++ "github.com".toList ++ ':' :: core := front_append ..
          rw [hfront, githubSlug_of_free hin _ (by decide), lstripChar_of_head (by decide),
            lstripChar_cons, hcolon]
        refine ⟨fun _ => hslug, fun h => absurd ⟨hin, fun _ _ _ heq => ?_⟩ h⟩
        cases heq
    | url scheme user port =>
        cases port with
        | none =>
            have hfront : Form.front "github.com".toList (.url scheme user none) ++ core
                = scheme.text ++ "://".toList ++ user.elim [] (· ++ ['@'])
                  ++ "github.com".toList ++ '/' :: core := by
              rw [front_append, Form.lead, authority]
              simp [Form.separator]
            refine ⟨fun _ => ?_, fun h => absurd ⟨hin, fun _ _ _ heq => ?_⟩ h⟩
            · rw [hfront, githubSlug_of_free hin _ (by decide), lstripChar_cons, hslash, hcolon]
            · cases heq
              rfl
        | some x =>
            have hfront : Form.front "github.com".toList (.url scheme user (some x)) ++ core
                = scheme.text ++ "://".toList ++ user.elim [] (· ++ ['@'])
                  ++ "github.com".toList ++ ':' :: x ++ '/' :: core := by
              rw [front_append, Form.lead, authority]
              simp [Form.separator]
            obtain ⟨hne, hdigits⟩ := hform.2 x rfl
            refine ⟨fun h => ?_, fun _ => ?_⟩
            · cases h.2 _ _ _ rfl
            · rw [hfront]
              exact githubSlug_port hin _ hne hdigits

-- ----------------------------------------------------------------------- on GitLab

theorem gitlabSlug_of_com {url : PyStr} (h : ".com".toList <:+: url) :
    gitlabSlug url = lstripChar '/' (lastPiece ".com".toList url) := if_pos h

theorem gitlabSlug_of_not {url : PyStr} (h : ¬ ".com".toList <:+: url) :
    gitlabSlug url = lastPiece [':'] url := if_neg h

theorem gitlabSlug_of_infix {core : PyStr} (h : ".com".toList <:+: core) (a : PyStr) :
    Spoilt (gitlabSlug (a ++ core)) core := by
  have hall : ".com".toList <:+: a ++ core := h.trans (List.suffix_append a core).isInfix
  rw [gitlabSlug_of_com hall]
  exact spoilt_of_infix com_first h a (lstripChar_length_le _ _)

/-- After the colon of `git@host:path`. -/
theorem gitlabSlug_scp (hcore : CoreOf core path) (h : ¬ ".com".toList <:+: core) :
    (¬ ".com".toList <:+: host.text → gitlabSlug (Form.front host.text .scp ++ core) = core)
      ∧ (".com".toList <:+: host.text →
        Spoilt (gitlabSlug (Form.front host.text .scp ++ core)) core) := by
  have hfront : Form.front host.text .scp ++ core = "git@".toList ++ host.text ++ ':' :: core :=
    front_append ..
  have hcom : ".com".toList <:+: "git@".toList ++ host.text ++ ':' :: core
      ↔ ".com".toList <:+: host.text := by
    rw [infix_append_cons (by decide), or_iff_left h]
    have hat : "git@".toList ++ host.text = "git".toList ++ '@' :: host.text := rfl
    rw [hat, infix_append_cons (by decide), or_iff_right (by decide)]
  rw [hfront]
  constructor
  · intro hhost
    have hcolon : ¬ [':'] <:+: core := fun hin =>
      core_not_mem (by decide) (by decide) hcore (hin.subset (List.mem_singleton_self ':'))
    have hsplit : "git@".toList ++ host.text ++ ':' :: core
        = "git@".toList ++ host.text ++ [':'] ++ core := by
      rw [List.append_assoc _ [':'], List.singleton_append]
    rw [gitlabSlug_of_not (mt hcom.1 hhost), hsplit,
      lastPiece_append_sep List.not_mem_nil hcolon]
  · intro hhost
    rw [gitlabSlug_of_com (hcom.2 hhost), com_eq,
      lastPiece_append_cons com_first (by decide) h]
    refine .inr (.inl ⟨':', ?_, not_pathChar (by decide) (by decide)⟩)
    exact Text.mem_dropWhile (List.mem_append_right _ (List.mem_cons_self ..)) rfl

theorem authority_end (host : HostName) (h : (Form.url .https user port).Ok) (scheme : Scheme) :
    ".com".toList <:+ scheme.text ++ "://".toList ++ authority user port host.text
      ↔ port = none ∧ ".com".toList <:+ host.text := by
  have hhost : ∀ r, ".com".toList <:+ scheme.text ++ "://".toList
      ++ (user.elim [] (· ++ ['@']) ++ r) ↔ ".com".toList <:+ r := by
    intro r
    cases user with
    | none =>
        have heq : scheme.text ++ "://".toList ++ ([] ++ r) = (scheme.text ++ ":/".toList) ++ '/' :: r := by
          rw [List.append_assoc, List.append_assoc]
          rfl
        exact heq ▸ suffix_append_cons (by decide)
    | some x =>
        have heq : scheme.text ++ "://".toList ++ (x ++ ['@'] ++ r)
            = (scheme.text ++ "://".toList ++ x) ++ '@' :: r := by
          rw [List.append_assoc x, List.append_assoc _ x, List.singleton_append]
        exact heq ▸ suffix_append_cons (by decide)
  rw [authority, hhost]
  cases port with
  | none =>
      show ".com".toList <:+ host.text ++ [] ↔ _
      rw [List.append_nil, eq_self_iff_true, true_and]
  | some x =>
      obtain ⟨hne, hdigits⟩ := h.2 x rfl
      refine iff_of_false (fun hend => ?_) (fun hend => by cases hend.1)
      have hend' := (suffix_append_cons (by decide)).1 hend
      exact absurd (hdigits 'm' (hend'.subset (by decide))) (by decide)

theorem gitlabSlug_url {scheme : Scheme}
    (hform : (Form.url scheme user port).Ok) (hcore : CoreOf core path)
    (h : ¬ ".com".toList <:+: core) :
    (port = none ∧ ".com".toList <:+ host.text →
        gitlabSlug (Form.front host.text (.url scheme user port) ++ core) = core)
      ∧ (¬ (port = none ∧ ".com".toList <:+ host.text) →
        Spoilt (gitlabSlug (Form.front host.text (.url scheme user port) ++ core)) core) := by
  have hend := authority_end host hform scheme
  have hlead : scheme.text ++ "://".toList ++ authority user port host.text
      = scheme.text ++ ":/".toList ++ '/' :: authority user port host.text := by
    rw [List.append_assoc, List.append_assoc]
    rfl
  have hne : scheme.text ++ "://".toList ++ authority user port host.text ≠ [] := by
    rw [hlead]
    simp
  have hfront : Form.front host.text (.url scheme user port) ++ core
      = scheme.text ++ "://".toList ++ authority user port host.text ++ '/' :: core :=
    front_append ..
  have hcom : ".com".toList <:+:
        scheme.text ++ "://".toList ++ authority user port host.text ++ '/' :: core
      ↔ ".com".toList <:+: scheme.text ++ "://".toList ++ authority user port host.text := by
    rw [infix_append_cons (by decide), or_iff_left h]
  have hlast : lastPiece ".com".toList
        (scheme.text ++ "://".toList ++ authority user port host.text ++ '/' :: core)
      = lastPiece ".com".toList (scheme.text ++ "://".toList ++ authority user port host.text)
        ++ '/' :: core := lastPiece_append_cons com_first (by decide) h _
  rw [hfront]
  constructor
  · intro hgood
    have hsuffix := hend.2 hgood
    have hnil : lastPiece ".com".toList
        (scheme.text ++ "://".toList ++ authority user port host.text) = [] :=
      (lastPiece_eq_nil_iff com_first hne).2 hsuffix
    rw [gitlabSlug_of_com (hcom.2 hsuffix.isInfix), hlast, hnil, List.nil_append, lstripChar_cons]
    exact lstripChar_core (by decide) hcore
  · intro hbad
    by_cases hin : ".com".toList <:+: scheme.text ++ "://".toList ++ authority user port host.text
    · rw [gitlabSlug_of_com (hcom.2 hin), hlast]
      have hauthority : ".com".toList <:+: authority user port host.text := by
        rw [hlead] at hin
        refine ((infix_append_cons (by decide)).1 hin).resolve_left ?_
        cases scheme with
        | https => decide
        | ssh => decide
      have hpiece : lastPiece ".com".toList
            (scheme.text ++ "://".toList ++ authority user port host.text)
          = lastPiece ".com".toList (authority user port host.text) :=
        lastPiece_append com_first hauthority _
      have hnil : lastPiece ".com".toList (authority user port host.text) ≠ [] := by
        rw [← hpiece]
        exact fun hnil => hbad (hend.1 ((lastPiece_eq_nil_iff com_first hne).1 hnil))
      have hslash : '/' ∉ lastPiece ".com".toList (authority user port host.text) := fun hmem =>
        authority_not_mem host hform (d := '/') (by decide)
          ((lastPiece_suffix com_first _).subset hmem)
      rw [hpiece, lstripChar_append hnil hslash]
      exact spoilt_of_slash _ core
    · have hcolon : ¬ [':'] <:+: core := fun hmem =>
        core_not_mem (by decide) (by decide) hcore (hmem.subset (List.mem_singleton_self ':'))
      rw [gitlabSlug_of_not (mt hcom.1 hin),
        lastPiece_append_cons List.not_mem_nil (by decide) hcolon]
      exact spoilt_of_slash _ core

theorem gitlabSlug_front {form : Form} (hform : form.Ok)
    (hhost : host.text ≠ "github.com".toList) (hcore : CoreOf core path) :
    (Cuts form host.text core → gitlabSlug (form.front host.text ++ core) = core)
      ∧ (¬ Cuts form host.text core → Spoilt (gitlabSlug (form.front host.text ++ core)) core) := by
  unfold Cuts
  rw [if_neg hhost]
  by_cases hin : ".com".toList <:+: core
  · exact ⟨fun h => absurd hin h.1, fun _ => gitlabSlug_of_infix hin _⟩
  · cases form with
    | url scheme user port =>
        have hurl := @gitlabSlug_url host _ _ _ _ _ hform hcore hin
        exact ⟨fun h => hurl.1 h.2, fun h => hurl.2 fun hgood => h ⟨hin, hgood⟩⟩
    | scp =>
        have hscp := @gitlabSlug_scp host _ _ hcore hin
        refine ⟨fun h => hscp.1 h.2, fun h => hscp.2 ?_⟩
        by_contra hgood
        exact h ⟨hin, hgood⟩

-- ===== the theorem

/-- The url is taken for its repository exactly when no `.git` of the path's
own is taken off, and the path is cut out whole. -/
theorem identified_iff (u : UrlRules) (base : Option PyStr) (host : HostName)
    (hhost : host.text = "github.com".toList ∨ host.text = gitlabHost u base) (path : RepoPath)
    (sp : Spelling) (r : Remotes) (hurl : r.remoteUrl = .ok (sp.url host.text path.text)) :
    detectProvider u base r = .ok (providerOf host.text, path.text)
      ↔ (sp.dotGit = true ∨ ¬ ".git".toList <:+ path.text) ∧ Cuts sp.form host.text path.text := by
  obtain ⟨core, hbare, hcore, hsame⟩ := bare_url sp host.text path
  have hname := remoteHostname_front u sp.form_ok host hcore.chars
  rw [← hsame]
  unfold detectProvider
  simp only [hurl, hbare, hname]
  by_cases hgithub : host.text = "github.com".toList
  · have hslug := githubSlug_front sp.form_ok hcore
    rw [hgithub, if_pos rfl, providerOf, if_pos rfl, Except.ok.injEq, Prod.mk.injEq,
      eq_self_iff_true, true_and]
    constructor
    · intro heq
      have hcuts : Cuts sp.form "github.com".toList core := by
        by_contra hnot
        exact (hslug.2 hnot).ne hcore heq
      have hpath : core = path.text := (hslug.1 hcuts).symm.trans heq
      exact ⟨hpath, hpath ▸ hcuts⟩
    · intro h
      rw [h.1] at hslug ⊢
      exact hslug.1 h.2
  · have hslug := gitlabSlug_front sp.form_ok hgithub hcore
    rw [if_neg hgithub, if_pos (hhost.resolve_left hgithub), providerOf, if_neg hgithub,
      Except.ok.injEq, Prod.mk.injEq, eq_self_iff_true, true_and]
    constructor
    · intro heq
      have hcuts : Cuts sp.form host.text core := by
        by_contra hnot
        exact (hslug.2 hnot).ne hcore heq
      have hpath : core = path.text := (hslug.1 hcuts).symm.trans heq
      exact ⟨hpath, hpath ▸ hcuts⟩
    · intro h
      rw [h.1] at hslug ⊢
      exact hslug.1 h.2

def asciiRules : UrlRules where
  lower := id
  checkNetloc _ := true
  checkBracketed _ := true

def githubHost : HostName := ⟨"github.com".toList, Text.all_mem (by decide)⟩

def twoSegments (owner repo : PyStr)
    (h : ∀ s ∈ [owner, repo], s ≠ [] ∧ ∀ c ∈ s, isNameChar c = true) : RepoPath :=
  ⟨owner, [repo], List.cons_ne_nil _ _, h⟩

def ownerRepo : RepoPath :=
  twoSegments "owner".toList "repo".toList (by simp [isNameChar, Text.isAlnum, Text.isLower])

def plainUrl (port : Option PyStr) (h : (Form.url .https none port).Ok) (dotGit : Bool) : Spelling :=
  ⟨.url .https none port, h, dotGit, false⟩

def onlyOrigin (url : PyStr) : Remotes where
  origin := some url
  names := .ok []
  url _ := .error []

theorem identified_iff_plain :
    detectProvider asciiRules none (onlyOrigin "https://github.com/owner/repo.git".toList)
        = .ok (.github, "owner/repo".toList)
      ↔ (true = true ∨ ¬ ".git".toList <:+ "owner/repo".toList)
          ∧ Cuts (.url .https none none) "github.com".toList "owner/repo".toList :=
  identified_iff asciiRules none githubHost (.inl rfl) ownerRepo
    (plainUrl none ⟨fun x hx => (by cases hx), fun x hx => (by cases hx)⟩ true)
    (onlyOrigin "https://github.com/owner/repo.git".toList) (by decide)

/-- A port, a segment that names the host, and the colon of `git@host:path`
on GitLab. -/
theorem not_identified :
    detectProvider asciiRules none (onlyOrigin "https://github.com:443/owner/repo".toList)
        = .ok (.github, "443/owner/repo".toList)
      ∧ detectProvider asciiRules none
          (onlyOrigin "https://github.com/owner/owner.github.com".toList) = .ok (.github, [])
      ∧ detectProvider asciiRules none (onlyOrigin "git@gitlab.com:group/project.git".toList)
        = .ok (.gitlab, ":group/project".toList) := by
  refine ⟨?_, ?_, ?_⟩
  · decide
  · decide
  · decide

end Velune.Tools

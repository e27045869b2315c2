/-
The symbol index and its cache (`repository/indexer.py`): a file whose digest
stands in the cache is restored from there, every other one is read, scanned
and parsed.

A cached entry is what a parse of the same bytes gives (`Sound`), so the two
routes agree on files and symbols. The cached one leaves out the scan, and
with it the path from the list of sanitised files: an index by the cache is
the full one exactly when no file found in it is one that the firewall
objects to (`index_transparent_iff`).

The digest, the firewall and the parser are parameters. A file stands under
its path from the root with slashes; what is saved can be loaded again.
-/
import Velune.Repository.IncrementalIndexer
import Velune.Repository.Schemas

namespace Velune.Repository

open Lib Intelligence

-- ===== secret files

def SECRET_PATTERNS : List String :=
  [".env", ".env.local", ".env.production", ".env.staging", ".env.development", "id_rsa", "id_dsa",
    "id_ed25519", "id_ecdsa", ".netrc", ".aws/credentials", "credentials.json",
    "service-account.json", "gcp-credentials.json"]

def SECRET_EXTENSIONS : List String := [".pem", ".key", ".p12", ".pfx", ".crt", ".cer"]

/-- `is_likely_secret`, of a path alone. -/
def isLikelySecret (filePath : PyStr) : Bool :=
  let name := (filePath.reverse.takeWhile (· != '/')).reverse
  let suffix := '.' :: (name.reverse.takeWhile (· != '.')).reverse
  SECRET_PATTERNS.any (fun pattern =>
    if '/' ∈ pattern.toList then pattern.toList.isSuffixOf filePath else name = pattern.toList) ||
  (name.contains '.' && SECRET_EXTENSIONS.any fun extension =>
    Commands.lower suffix = extension.toList)

-- ===== the index

/-- The digest, the firewall's verdict on a text with the neutralised text,
and the parser; the last two may raise. -/
structure IndexerEnv (σ : Type) where
  sha256 : List UInt8 → PyStr
  scan : PyStr → PyStr → Option (Bool × PyStr)
  parse : PyStr → PyStr → Option (List σ)

structure FileMetadata where
  opaqueReason : Option String
  injectionRisk : Bool

structure CacheEntry (σ : Type) where
  sha256 : PyStr
  language : PyStr
  sizeBytes : Nat
  symbols : List σ
  metadata : FileMetadata

structure RepositoryFile (σ : Type) extends CacheEntry σ where
  path : PyStr

/-- What the scan finds; a file that cannot be read has no bytes. -/
structure CodeFiles where
  paths : List PyStr
  read : PyStr → Option (List UInt8)

structure Turn (σ : Type) where
  files : List (RepositoryFile σ) := []
  entries : List (PyStr × CacheEntry σ) := []
  excluded : List PyStr := []
  sanitized : List PyStr := []

structure RepositorySnapshot (σ : Type) where
  files : List (RepositoryFile σ)
  symbols : List σ
  totalFiles : Nat
  totalSymbols : Nat
  languages : Assoc PyStr Nat
  excludedPaths : List PyStr
  sanitizedPaths : List PyStr

variable {σ : Type} (env : IndexerEnv σ)

def recorded (path : PyStr) : Option (CacheEntry σ) → Turn σ
  | none => {}
  | some entry => { files := [⟨entry, path⟩], entries := [(path, entry)] }

/-- The entry of a file whose text is scanned; nothing where the parser
raises. -/
def IndexerEnv.parsed (path : PyStr) (bytes : List UInt8) (isSafe : Bool) (code : PyStr) :
    Option (CacheEntry σ) :=
  if isGeneratedContent code then
    some ⟨env.sha256 bytes, detectLanguage path, bytes.length, [],
      ⟨some "detected generated-file marker", !isSafe⟩⟩
  else
    (env.parse path code).map fun symbols =>
      ⟨env.sha256 bytes, detectLanguage path, bytes.length, symbols, ⟨none, !isSafe⟩⟩

def IndexerEnv.fresh (path : PyStr) (bytes : List UInt8) : Turn σ :=
  if MAX_STRUCTURAL_PARSE_BYTES < bytes.length then
    recorded path (some ⟨env.sha256 bytes, detectLanguage path, bytes.length, [],
      ⟨some "exceeds structural parse size limit", false⟩⟩)
  else
    let code := Text.universalNewlines (Utf8.decodeIgnore bytes)
    match env.scan path code with
    | none => {}
    | some (true, _) => recorded path (env.parsed path bytes true code)
    | some (false, neutralized) =>
        { recorded path (env.parsed path bytes false neutralized) with sanitized := [path] }

def IndexerEnv.indexFile (cache : Assoc PyStr (CacheEntry σ)) (read : PyStr → Option (List UInt8))
    (path : PyStr) : Turn σ :=
  if isLikelySecret path then { excluded := [path] }
  else
    match read path with
    | none => {}
    | some bytes =>
        match cache.get? path with
        | none => env.fresh path bytes
        | some entry =>
            if entry.sha256 = env.sha256 bytes then
              { files := [⟨{ entry with sizeBytes := bytes.length }, path⟩], entries := [(path, entry)] }
            else env.fresh path bytes

def IndexerEnv.turns (tree : CodeFiles) (cache : Assoc PyStr (CacheEntry σ)) : List (Turn σ) :=
  tree.paths.map (env.indexFile cache tree.read)

def compileLanguageSummary (files : List (RepositoryFile σ)) : Assoc PyStr Nat :=
  files.foldl (fun counts f => counts.set f.language ((counts.get? f.language).getD 0 + 1)) []

/-- `index`, with the cache that is loaded; `force` loads none. -/
def IndexerEnv.index (tree : CodeFiles) (cache : Assoc PyStr (CacheEntry σ)) :
    RepositorySnapshot σ :=
  let files := (env.turns tree cache).flatMap (·.files)
  let symbols := files.flatMap (·.symbols)
  ⟨files, symbols, files.length, symbols.length, compileLanguageSummary files,
    (env.turns tree cache).flatMap (·.excluded), (env.turns tree cache).flatMap (·.sanitized)⟩

def IndexerEnv.newCache (tree : CodeFiles) (cache : Assoc PyStr (CacheEntry σ)) :
    Assoc PyStr (CacheEntry σ) :=
  ((env.turns tree cache).flatMap (·.entries)).foldl (fun found e => found.set e.1 e.2) []

/-- The caches that runs leave, over any trees. A run that cannot save keeps
the one before. -/
inductive Left : Assoc PyStr (CacheEntry σ) → Prop
  | absent : Left []
  | saved {cache : Assoc PyStr (CacheEntry σ)} (h : Left cache) (tree : CodeFiles) (force : Bool) :
      Left (env.newCache tree (if force then [] else cache))

/-- The firewall objects to the text of a file that is small enough to be
parsed. -/
def Flagged (path : PyStr) (bytes : List UInt8) : Prop :=
  bytes.length ≤ MAX_STRUCTURAL_PARSE_BYTES ∧ ∃ neutralized,
    env.scan path (Text.universalNewlines (Utf8.decodeIgnore bytes)) = some (false, neutralized)

def Restored (tree : CodeFiles) (cache : Assoc PyStr (CacheEntry σ)) (path : PyStr)
    (bytes : List UInt8) : Prop :=
  path ∈ tree.paths ∧ isLikelySecret path = false ∧ tree.read path = some bytes ∧
    ∃ entry, cache.get? path = some entry ∧ entry.sha256 = env.sha256 bytes

-- ===== both routes

variable {env}
variable {entry : CacheEntry σ} {cache : Assoc PyStr (CacheEntry σ)}

theorem recorded_entry {path key : PyStr} {found : Option (CacheEntry σ)}
    (h : (key, entry) ∈ (recorded path found).entries) :
    key = path ∧ found = some entry ∧ (recorded path found).files = [⟨entry, path⟩] := by
  cases found with
  | none => cases h
  | some e =>
      obtain ⟨rfl, rfl⟩ := Prod.mk.inj (List.mem_singleton.1 h)
      exact ⟨rfl, rfl, rfl⟩

theorem parsed_sized {path code : PyStr} {bytes : List UInt8} {isSafe : Bool}
    (h : env.parsed path bytes isSafe code = some entry) :
    entry.sha256 = env.sha256 bytes ∧ entry.sizeBytes = bytes.length := by
  unfold IndexerEnv.parsed at h
  split at h
  next => obtain rfl := Option.some.inj h; exact ⟨rfl, rfl⟩
  next => obtain ⟨symbols, -, rfl⟩ := Option.map_eq_some_iff.1 h; exact ⟨rfl, rfl⟩

theorem fresh_entry {path key : PyStr} {bytes : List UInt8}
    (h : (key, entry) ∈ (env.fresh path bytes).entries) :
    key = path ∧ entry.sha256 = env.sha256 bytes ∧ entry.sizeBytes = bytes.length ∧
      (env.fresh path bytes).files = [⟨entry, path⟩] := by
  unfold IndexerEnv.fresh at h ⊢
  dsimp only at h ⊢
  split at h
  next hbig =>
    obtain ⟨rfl, hentry, hfiles⟩ := recorded_entry h
    obtain rfl := Option.some.inj hentry
    exact ⟨rfl, rfl, rfl, by rw [if_pos hbig]; exact hfiles⟩
  next hsmall =>
    rw [if_neg hsmall]
    split at h
    next => cases h
    next code hscan =>
      obtain ⟨rfl, hentry, hfiles⟩ := recorded_entry h
      exact ⟨rfl, (parsed_sized hentry).1, (parsed_sized hentry).2, hfiles⟩
    next neutralized hscan =>
      obtain ⟨rfl, hentry, hfiles⟩ := recorded_entry h
      exact ⟨rfl, (parsed_sized hentry).1, (parsed_sized hentry).2, hfiles⟩

variable (env) in
theorem fresh_lists (path : PyStr) (bytes : List UInt8) :
    (env.fresh path bytes).excluded = [] ∧ ((env.fresh path bytes).sanitized = [path] ∧
      Flagged env path bytes ∨ (env.fresh path bytes).sanitized = [] ∧ ¬ Flagged env path bytes) := by
  have hnone : ∀ found : Option (CacheEntry σ),
      (recorded path found).excluded = [] ∧ (recorded path found).sanitized = [] := fun found => by
    cases found with
    | none => exact ⟨rfl, rfl⟩
    | some entry => exact ⟨rfl, rfl⟩
  unfold IndexerEnv.fresh Flagged
  dsimp only
  split
  next hbig => exact ⟨rfl, .inr ⟨rfl, fun h => absurd h.1 (not_le.2 hbig)⟩⟩
  next hsmall =>
    split
    next hscan => exact ⟨rfl, .inr ⟨rfl, fun ⟨_, _, h⟩ => by rw [hscan] at h; cases h⟩⟩
    next code hscan =>
      refine ⟨(hnone _).1, .inr ⟨(hnone _).2, fun ⟨_, _, h⟩ => ?_⟩⟩
      rw [hscan] at h
      cases h
    next neutralized hscan =>
      exact ⟨(hnone _).1, .inl ⟨rfl, not_lt.1 hsmall, neutralized, hscan⟩⟩

/-- Every entry is what a fresh turn adds for some bytes of its digest. -/
def Sound (env : IndexerEnv σ) (cache : Assoc PyStr (CacheEntry σ)) : Prop :=
  ∀ path entry, cache.get? path = some entry → ∃ bytes, (path, entry) ∈ (env.fresh path bytes).entries

theorem Sound.indexFile (h : Sound env cache)
    {read : PyStr → Option (List UInt8)} {path key : PyStr}
    (hmem : (key, entry) ∈ (env.indexFile cache read path).entries) :
    ∃ bytes, (key, entry) ∈ (env.fresh key bytes).entries := by
  have hfresh : ∀ bytes, (key, entry) ∈ (env.fresh path bytes).entries →
      ∃ bytes, (key, entry) ∈ (env.fresh key bytes).entries := fun bytes hin => by
    have hkey := (fresh_entry hin).1
    subst hkey
    exact ⟨bytes, hin⟩
  unfold IndexerEnv.indexFile at hmem
  split at hmem
  next => cases hmem
  next =>
    split at hmem
    next => cases hmem
    next bytes _ =>
      split at hmem
      next => exact hfresh bytes hmem
      next cached hget =>
        split at hmem
        next =>
          obtain ⟨rfl, rfl⟩ := Prod.mk.inj (List.mem_singleton.1 hmem)
          exact h key entry hget
        next => exact hfresh bytes hmem

theorem Sound.newCache (h : Sound env cache)
    (tree : CodeFiles) : Sound env (env.newCache tree cache) := by
  have hset : ∀ (new : List (PyStr × CacheEntry σ)) (found : Assoc PyStr (CacheEntry σ)),
      Sound env found → (∀ e ∈ new, ∃ bytes, e ∈ (env.fresh e.1 bytes).entries) →
        Sound env (new.foldl (fun found e => found.set e.1 e.2) found) := by
    intro new
    induction new with
    | nil => exact fun found hfound _ => hfound
    | cons e rest ih =>
        intro found hfound hnew
        refine ih _ (fun path entry hget => ?_) fun e he => hnew e (List.mem_cons_of_mem _ he)
        rcases Assoc.get?_set_cases hget with ⟨rfl, rfl⟩ | ⟨-, hold⟩
        · exact hnew e (List.mem_cons_self ..)
        · exact hfound path entry hold
  refine hset _ [] (fun _ _ hget => by cases hget) fun e he => ?_
  obtain ⟨turn, hturn, hin⟩ := List.mem_flatMap.1 he
  obtain ⟨path, -, rfl⟩ := List.mem_map.1 hturn
  exact h.indexFile hin

theorem Left.sound (h : Left env cache) : Sound env cache := by
  induction h with
  | absent => exact fun _ _ hget => by cases hget
  | saved _ tree force ih =>
      cases force with
      | true =>
          have hnone : Sound env [] := fun _ _ hget => by cases hget
          exact hnone.newCache tree
      | false => exact ih.newCache tree

/-- Where the entry is sound, both routes differ in the sanitised list
alone. -/
theorem Sound.turn (hsha : Function.Injective env.sha256)
    (h : Sound env cache) (tree : CodeFiles) (path : PyStr) :
    (env.indexFile cache tree.read path).files = (env.indexFile [] tree.read path).files ∧
    (env.indexFile cache tree.read path).excluded = (env.indexFile [] tree.read path).excluded ∧
    ((env.indexFile cache tree.read path).sanitized = (env.indexFile [] tree.read path).sanitized ∧
        (path ∈ tree.paths → ∀ bytes, Restored env tree cache path bytes → ¬ Flagged env path bytes) ∨
      (env.indexFile cache tree.read path).sanitized = [] ∧
        (env.indexFile [] tree.read path).sanitized = [path] ∧
        ∃ bytes,
    (path ∈ tree.paths → Restored env tree cache path bytes) ∧ Flagged env path bytes) := by
  cases hsecret : isLikelySecret path with
  | true =>
      have hgate : ∀ cache, env.indexFile cache tree.read path = { excluded := [path] } :=
        fun _ => if_pos hsecret
      rw [hgate, hgate]
      exact ⟨rfl, rfl, .inl ⟨rfl, fun _ bytes hr => by cases hsecret.symm.trans hr.2.1⟩⟩
  | false =>
      cases hread : tree.read path with
      | none =>
          have hgone : ∀ cache, env.indexFile cache tree.read path = {} := fun _ => by
            rw [IndexerEnv.indexFile, hsecret, hread]; rfl
          rw [hgone, hgone]
          exact ⟨rfl, rfl, .inl ⟨rfl, fun _ bytes hr => by cases hread.symm.trans hr.2.2.1⟩⟩
      | some bytes =>
          have hfull : env.indexFile [] tree.read path = env.fresh path bytes := by
            rw [IndexerEnv.indexFile, hsecret, hread]; rfl
          by_cases hhit : ∃ entry, cache.get? path = some entry ∧ entry.sha256 = env.sha256 bytes
          · obtain ⟨entry, hget, hsame⟩ := hhit
            have hcached : env.indexFile cache tree.read path =
                { files := [⟨{ entry with sizeBytes := bytes.length }, path⟩]
                  entries := [(path, entry)] } := by
              rw [IndexerEnv.indexFile, hsecret, hread, hget]
              exact if_pos hsame
            obtain ⟨made, hmade⟩ := h path entry hget
            obtain ⟨-, hdigest, hsize, hfiles⟩ := fresh_entry hmade
            obtain rfl : made = bytes := hsha (hdigest.symm.trans hsame)
            obtain ⟨hexcluded, hsanitized⟩ := fresh_lists env path made
            rw [hfull, hcached, hfiles, ← hsize]
            refine ⟨rfl, hexcluded.symm, ?_⟩
            rcases hsanitized with ⟨hlist, hflag⟩ | ⟨hlist, hflag⟩
            · exact .inr ⟨rfl, hlist, made,
                fun hin => ⟨hin, hsecret, hread, entry, hget, hsame⟩, hflag⟩
            · refine .inl ⟨hlist.symm, fun _ other hr => ?_⟩
              obtain rfl : made = other := Option.some.inj (hread.symm.trans hr.2.2.1)
              exact hflag
          · have hmiss : env.indexFile cache tree.read path = env.fresh path bytes := by
              rw [IndexerEnv.indexFile, hsecret, hread]
              cases hget : cache.get? path with
              | none => rfl
              | some entry => exact if_neg fun hsame => hhit ⟨entry, hget, hsame⟩
            rw [hfull, hmiss]
            refine ⟨rfl, rfl, .inl ⟨rfl, fun _ other hr => ?_⟩⟩
            obtain rfl : bytes = other := Option.some.inj (hread.symm.trans hr.2.2.1)
            exact absurd hr.2.2.2 hhit

-- ===== two runs

theorem flatMap_eq_iff {α β : Type} {f g : α → List β} : ∀ {xs : List α},
    (∀ x ∈ xs, f x = g x ∨ (f x = [] ∧ g x ≠ [])) →
      (xs.flatMap f = xs.flatMap g ↔ ∀ x ∈ xs, f x = g x) := by
  have hshort : ∀ xs : List α, (∀ x ∈ xs, f x = g x ∨ (f x = [] ∧ g x ≠ [])) →
      (xs.flatMap f).length ≤ (xs.flatMap g).length := by
    intro xs
    induction xs with
    | nil => exact fun _ => le_refl 0
    | cons x rest ih =>
        intro h
        have hrest := ih fun y hy => h y (List.mem_cons_of_mem _ hy)
        rw [List.flatMap_cons, List.flatMap_cons, List.length_append, List.length_append]
        rcases h x (List.mem_cons_self ..) with heq | ⟨hnil, -⟩
        · rw [heq]; omega
        · rw [hnil, List.length_nil]; omega
  intro xs
  induction xs with
  | nil => exact fun _ => iff_of_true rfl fun x hx => absurd hx List.not_mem_nil
  | cons x rest ih =>
      intro h
      have hrest := fun y hy => h y (List.mem_cons_of_mem x hy)
      rw [List.flatMap_cons, List.flatMap_cons, List.forall_mem_cons]
      rcases h x (List.mem_cons_self ..) with heq | ⟨hnil, hne⟩
      · rw [heq, List.append_cancel_left_eq, ih hrest]
        exact (and_iff_right rfl).symm
      · refine iff_of_false (fun hall => ?_) fun hall => hne (hall.1 ▸ hnil)
        have hlen := congrArg List.length hall
        rw [hnil, List.nil_append, List.length_append] at hlen
        have hlt := hshort rest hrest
        have hpos := List.length_pos_iff.2 hne
        omega

/-- An index by a cache that runs left is the full one exactly when the
firewall objects to no file that is restored. -/
theorem index_transparent_iff (hsha : Function.Injective env.sha256)
    {cache : Assoc PyStr (CacheEntry σ)} (h : Left env cache) (tree : CodeFiles) :
    env.index tree cache = env.index tree [] ↔
      ∀ path bytes, Restored env tree cache path bytes → ¬ Flagged env path bytes := by
  have hturn := h.sound.turn hsha tree
  have hfiles : (env.turns tree cache).flatMap (·.files) = (env.turns tree []).flatMap (·.files) := by
    simp only [IndexerEnv.turns, List.flatMap_map, fun path => (hturn path).1]
  have hexcluded : (env.turns tree cache).flatMap (·.excluded) =
      (env.turns tree []).flatMap (·.excluded) := by
    simp only [IndexerEnv.turns, List.flatMap_map, fun path => (hturn path).2.1]
  simp only [IndexerEnv.index, hfiles, hexcluded, RepositorySnapshot.mk.injEq, true_and]
  simp only [IndexerEnv.turns, List.flatMap_map]
  rw [flatMap_eq_iff fun path _ => ?_]
  · constructor
    · intro hall path bytes hr
      rcases (hturn path).2.2 with ⟨-, hflag⟩ | ⟨hnil, hone, -⟩
      · exact hflag hr.1 bytes hr
      · have heq := hall path hr.1
        rw [hnil, hone] at heq
        cases heq
    · intro hall path hin
      rcases (hturn path).2.2 with ⟨heq, -⟩ | ⟨-, -, bytes, hr, hflag⟩
      · exact heq
      · exact absurd hflag (hall path bytes (hr hin))
  · rcases (hturn path).2.2 with ⟨heq, -⟩ | ⟨hnil, hone, -⟩
    · exact .inl heq
    · exact .inr ⟨hnil, by rw [hone]; exact List.cons_ne_nil _ _⟩

def strictEnv : IndexerEnv PyStr where
  sha256 := plainDigest
  scan := fun _ code => some (code.isEmpty, [])
  parse := fun _ _ => some []

def oneFile (bytes : List UInt8) : CodeFiles := ⟨[['a']], fun _ => some bytes⟩

theorem index_transparent_empty :
    strictEnv.index (oneFile []) (strictEnv.newCache (oneFile []) []) =
      strictEnv.index (oneFile []) [] := by
  refine (index_transparent_iff plainDigest_injective (.saved .absent (oneFile []) false)
    (oneFile [])).2 fun path bytes hr hflag => ?_
  obtain rfl : [] = bytes := Option.some.inj hr.2.2.1
  obtain ⟨-, neutralized, hscan⟩ := hflag
  cases hscan

/-- The second run does not say that the file was sanitised. -/
theorem not_transparent_flagged : ¬ ∀ (tree : CodeFiles) (cache : Assoc PyStr (CacheEntry PyStr)),
    Left strictEnv cache → strictEnv.index tree cache = strictEnv.index tree [] := by
  intro h
  have hrun := congrArg RepositorySnapshot.sanitizedPaths
    (h (oneFile [97]) _ (.saved .absent (oneFile [97]) false))
  exact absurd hrun (by decide +kernel)

end Velune.Repository

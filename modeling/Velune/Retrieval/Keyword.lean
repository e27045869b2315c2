/-
The lexical index (`retrieval/keyword.py`) and the vector index that
`HybridRetriever.add_documents` keeps beside it (`retrieval/hybrid.py`,
`retrieval/vector.py`).

A batch is appended to the lexical index before any of its documents is
checked, and put into the vector index one document at a time, by the number
of its id; a reload replaces the lexical index from the corpus file alone. The
indexes agree after every run whose batches are new, whole and of one
dimension, and whose reloads bring back what the vector index holds
(`indexes_agree`).

The vector store does what it is asked to. The number of an id is a
parameter.
-/
import Mathlib.Data.List.Nodup
import Velune.Domain
import Velune.Lib.Assoc
import Velune.Lib.Json
import Velune.Lib.Runs

namespace Velune.Retrieval

open Lib

-- ===== documents

structure RetrievalDocument where
  id : PyStr
  content : PyStr
  metadata : Assoc PyStr Json
  space : PyStr
  embedding : List Rat

/-- `BM25Retriever`; `tokenize` makes the corpus of what is added. -/
structure BM25Retriever where
  documents : List RetrievalDocument
  corpus : List (List PyStr)
  /-- What `bm25` was built from, unless there is something new. -/
  bm25 : Option (List (List PyStr))
  dirty : Bool

def BM25Retriever.new : BM25Retriever := ⟨[], [], none, false⟩

section Adding

variable (tokenize : PyStr → List PyStr) (pointId : PyStr → Nat)

/-- `add_documents`, and `add_documents_batch`. -/
def BM25Retriever.addDocuments (b : BM25Retriever) (docs : List RetrievalDocument) :
    BM25Retriever :=
  ⟨b.documents ++ docs, b.corpus ++ docs.map fun doc => tokenize doc.content, none, true⟩

abbrev Payload := PyStr → Option Json

def payload (doc : RetrievalDocument) : Payload := fun key =>
  (doc.metadata.get? key).or (Assoc.get? [("doc_id".toList, .str doc.id),
    ("content".toList, .str doc.content), ("namespace".toList, .str doc.space)] key)

/-- The collection; it has no dimension before it is made. -/
structure VectorStore where
  dimension : Option Nat
  points : Nat → Option Payload

/-- `upsert`; a collection of another dimension is made anew. -/
def VectorStore.upsert (v : VectorStore) (doc : RetrievalDocument) : VectorStore where
  dimension := some doc.embedding.length
  points := Function.update (if v.dimension = some doc.embedding.length then v.points else fun _ => none)
    (pointId doc.id) (some (payload doc))

/-- A record of the corpus file; a field that is missing is empty. -/
structure RawDocument where
  id : PyStr
  content : PyStr
  metadata : Assoc PyStr Json

/-- A corpus file with its time and size; `records` is `none` when it cannot
be loaded. -/
structure CorpusFile where
  signature : Nat × Nat
  records : Option (List RawDocument)

def loadLexicalDocuments (records : List RawDocument) : List RetrievalDocument :=
  (records.filter fun d => d.id ≠ [] ∧ d.content ≠ []).map fun d =>
    ⟨d.id, d.content, d.metadata, "workspace".toList, []⟩

structure HybridRetriever where
  lexical : BM25Retriever
  vector : VectorStore
  lexicalIndexPath : Option PyStr
  lexicalIndexMtime : Option (Nat × Nat)

def missingEmbedding (doc : RetrievalDocument) : PyStr :=
  "Document ".toList ++ doc.id ++ (" must have a pre-computed embedding. All callers of " ++
    "add_documents() must pre-compute embeddings using await before calling.").toList

/-- The loop of `add_documents`, with the error that it raises. -/
def upsertAll : VectorStore → List RetrievalDocument → VectorStore × Option PyStr
  | v, [] => (v, none)
  | v, doc :: rest =>
      if doc.embedding = [] then (v, some (missingEmbedding doc))
      else upsertAll (v.upsert pointId doc) rest

def HybridRetriever.addDocuments (s : HybridRetriever) (docs : List RetrievalDocument) :
    HybridRetriever × Option PyStr :=
  let (vector, error) := upsertAll pointId s.vector docs
  ({ s with lexical := s.lexical.addDocuments tokenize docs, vector }, error)

/-- The documents that `refresh_lexical_index` loads, and from which file. -/
def HybridRetriever.reloads (s : HybridRetriever) (disk : PyStr → Option CorpusFile) :
    Option ((Nat × Nat) × List RetrievalDocument) :=
  match s.lexicalIndexPath.bind disk with
  | none => none
  | some file =>
      if s.lexicalIndexMtime = some file.signature then none
      else file.records.map fun records => (file.signature, loadLexicalDocuments records)

def HybridRetriever.refreshLexicalIndex (s : HybridRetriever) (disk : PyStr → Option CorpusFile) :
    HybridRetriever :=
  match s.reloads disk with
  | none => s
  | some (mtime, docs) =>
      { s with
        lexicalIndexMtime := some mtime
        lexical := if docs = [] then .new else BM25Retriever.new.addDocuments tokenize docs }

-- ===== agreement

inductive Op where
  | addDocuments (docs : List RetrievalDocument)
  /-- With what is at each path. -/
  | refresh (disk : PyStr → Option CorpusFile)

def step : Op → HybridRetriever → Option HybridRetriever
  | .addDocuments docs, s => some (s.addDocuments tokenize pointId docs).1
  | .refresh disk, s => some (s.refreshLexicalIndex tokenize disk)

def BM25Retriever.contents (b : BM25Retriever) (id : PyStr) : List PyStr :=
  (b.documents.filter (·.id = id)).map (·.content)

def VectorStore.Holds (v : VectorStore) (id : PyStr) (n : Nat) (p : Payload) : Prop :=
  v.points n = some p ∧ p "doc_id".toList = some (.str id)

def latest (docs : List RetrievalDocument) (id : PyStr) : Option RetrievalDocument :=
  docs.reverse.find? (·.id = id)

structure Agrees (op : Op) (s : HybridRetriever) : Prop where
  /-- A call that raises leaves them as they were. -/
  raised : ∀ docs message, op = .addDocuments docs →
    (s.addDocuments tokenize pointId docs).2 = some message →
      (s.addDocuments tokenize pointId docs).1 = s
  /-- One that returns leaves each document in both, once, as given last. -/
  added : ∀ docs, op = .addDocuments docs → (s.addDocuments tokenize pointId docs).2 = none →
    ∀ doc ∈ docs, ∃ last, latest docs doc.id = some last ∧
      (s.addDocuments tokenize pointId docs).1.lexical.contents doc.id = [last.content] ∧
        ∃ n p, (s.addDocuments tokenize pointId docs).1.vector.Holds doc.id n p ∧
          p "content".toList = some (.str last.content) ∧
            ∀ n' p', (s.addDocuments tokenize pointId docs).1.vector.Holds doc.id n' p' → n' = n
  /-- Nothing leaves the lexical index that the vector index still has. -/
  kept : ∀ s' id n p, step tokenize pointId op s = some s' → s.lexical.contents id ≠ [] →
    s'.vector.Holds id n p → s'.lexical.contents id ≠ []

def Plain (doc : RetrievalDocument) : Prop :=
  payload doc "doc_id".toList = some (.str doc.id) ∧
    payload doc "content".toList = some (.str doc.content)

/-- The batch is new to the lexical index, of one dimension and with one point
for each document; what is reloaded has all that both indexes hold. -/
def Fits : Op → HybridRetriever → Prop
  | .addDocuments docs, s => (∃ dim, 0 < dim ∧ ∀ doc ∈ docs, doc.embedding.length = dim) ∧
      (docs.map (pointId ·.id)).Nodup ∧ (∀ doc ∈ docs, Plain doc) ∧
        ∀ doc ∈ docs, s.lexical.contents doc.id = []
  | .refresh disk, s => ∀ file docs, s.reloads disk = some (file, docs) → ∀ id n p,
      s.vector.Holds id n p → s.lexical.contents id ≠ [] → ∃ doc ∈ docs, doc.id = id

def Sound (v : VectorStore) : Prop :=
  ∀ n p, v.points n = some p → ∃ id, p "doc_id".toList = some (.str id) ∧ n = pointId id

end Adding

section Proofs

variable {tokenize : PyStr → List PyStr} {pointId : PyStr → Nat} {v : VectorStore}
  {docs : List RetrievalDocument} {s : HybridRetriever}

theorem upsert_self (v : VectorStore) (doc : RetrievalDocument) :
    (v.upsert pointId doc).points (pointId doc.id) = some (payload doc) := Function.update_self ..

theorem upsert_of_ne {doc : RetrievalDocument} {n : Nat} (h : n ≠ pointId doc.id) :
    (v.upsert pointId doc).points n =
      if v.dimension = some doc.embedding.length then v.points n else none := by
  refine (Function.update_of_ne h ..).trans ?_
  split <;> rfl

theorem upsertAll_keeps {dim n : Nat} (hdim : ∀ doc ∈ docs, doc.embedding.length = dim)
    (hn : n ∉ docs.map (pointId ·.id)) (hv : v.dimension = some dim) :
    (upsertAll pointId v docs).1.points n = v.points n := by
  induction docs generalizing v with
  | nil => rfl
  | cons doc rest ih =>
      rw [List.map_cons, List.mem_cons, not_or] at hn
      have hdoc := hdim doc (List.mem_cons_self ..)
      rw [upsertAll]
      split
      next => rfl
      next =>
        rw [ih (fun d hd => hdim d (List.mem_cons_of_mem _ hd)) hn.2 (congrArg some hdoc),
          upsert_of_ne hn.1, if_pos (by rw [hv, hdoc])]

/-- A batch of one dimension, with a point for each document, is put in whole. -/
theorem upsertAll_points {dim : Nat} (hpos : 0 < dim)
    (hdim : ∀ doc ∈ docs, doc.embedding.length = dim) (hnodup : (docs.map (pointId ·.id)).Nodup) :
    (upsertAll pointId v docs).2 = none ∧
      ∀ doc ∈ docs, (upsertAll pointId v docs).1.points (pointId doc.id) = some (payload doc) := by
  induction docs generalizing v with
  | nil => exact ⟨rfl, fun _ h => absurd h List.not_mem_nil⟩
  | cons doc rest ih =>
      obtain ⟨hnew, hrest⟩ := List.nodup_cons.1 hnodup
      have hdoc := hdim doc (List.mem_cons_self ..)
      have hlater := fun d hd => hdim d (List.mem_cons_of_mem doc hd)
      have hembedded : doc.embedding ≠ [] := List.ne_nil_of_length_pos (hdoc ▸ hpos)
      obtain ⟨hreturns, hput⟩ := ih (v := v.upsert pointId doc) hlater hrest
      rw [upsertAll, if_neg hembedded]
      refine ⟨hreturns, fun d hd => ?_⟩
      rcases List.mem_cons.1 hd with rfl | hd
      · exact (upsertAll_keeps hlater hnew (congrArg some hdoc)).trans (upsert_self ..)
      · exact hput d hd

theorem Sound.upsertAll (hplain : ∀ doc ∈ docs, Plain doc) (h : Sound pointId v) :
    Sound pointId (upsertAll pointId v docs).1 := by
  induction docs generalizing v with
  | nil => exact h
  | cons doc rest ih =>
      rw [Retrieval.upsertAll]
      split
      next => exact h
      next =>
        refine ih (fun d hd => hplain d (List.mem_cons_of_mem _ hd)) fun n p hp => ?_
        by_cases hn : n = pointId doc.id
        · subst hn
          obtain rfl := Option.some.inj ((upsert_self v doc).symm.trans hp)
          exact ⟨doc.id, (hplain doc (List.mem_cons_self ..)).1, rfl⟩
        · rw [upsert_of_ne hn] at hp
          split at hp
          next => exact h n p hp
          next => cases hp

/-- A document of a batch with one point for each is the only one of its id. -/
theorem only_of_id (hnodup : (docs.map (pointId ·.id)).Nodup) {doc : RetrievalDocument}
    (hdoc : doc ∈ docs) : docs.filter (·.id = doc.id) = [doc] ∧ latest docs doc.id = some doc := by
  obtain ⟨before, later, rfl⟩ := List.append_of_mem hdoc
  obtain ⟨-, hlater, hbefore⟩ := List.pairwise_append.1 (List.pairwise_map.1 hnodup)
  have hb : ∀ d ∈ before, d.id ≠ doc.id := fun d hd heq =>
    hbefore d hd doc (List.mem_cons_self ..) (congrArg pointId heq)
  have hl : ∀ d ∈ later, d.id ≠ doc.id := fun d hd heq =>
    (List.pairwise_cons.1 hlater).1 d hd (congrArg pointId heq.symm)
  constructor
  · rw [List.filter_append, List.filter_cons, if_pos (decide_eq_true rfl),
      List.filter_eq_nil_iff.2 fun d hd => by simpa using hb d hd,
      List.filter_eq_nil_iff.2 fun d hd => by simpa using hl d hd]
    rfl
  · have hnone : later.reverse.find? (·.id = doc.id) = none :=
      List.find?_eq_none.2 fun d hd => by simpa using hl d (List.mem_reverse.1 hd)
    rw [latest, List.reverse_append, List.reverse_cons, List.append_assoc, List.find?_append, hnone]
    simp

theorem contents_addDocuments (b : BM25Retriever) (docs : List RetrievalDocument) (id : PyStr) :
    (b.addDocuments tokenize docs).contents id =
      b.contents id ++ (docs.filter (·.id = id)).map (·.content) := by
  rw [BM25Retriever.contents, BM25Retriever.addDocuments, List.filter_append, List.map_append]
  rfl

theorem Agrees.add (hsound : Sound pointId s.vector) (h : Fits pointId (.addDocuments docs) s) :
    Agrees tokenize pointId (.addDocuments docs) s := by
  obtain ⟨⟨dim, hpos, hdim⟩, hnodup, hplain, hnew⟩ := h
  obtain ⟨hreturns, hput⟩ := upsertAll_points (v := s.vector) hpos hdim hnodup
  refine ⟨?_, ?_, ?_⟩
  · intro all message heq hraises
    cases heq
    cases hreturns.symm.trans hraises
  · intro all heq _ doc hdoc
    cases heq
    obtain ⟨hfilter, hlast⟩ := only_of_id hnodup hdoc
    refine ⟨doc, hlast, ?_, pointId doc.id, payload doc, ⟨hput doc hdoc, (hplain doc hdoc).1⟩,
      (hplain doc hdoc).2, fun n p hp => ?_⟩
    · exact (contents_addDocuments ..).trans (by rw [hnew doc hdoc, hfilter]; rfl)
    · obtain ⟨id, hid, rfl⟩ := (hsound.upsertAll hplain) n p hp.1
      cases hid.symm.trans hp.2
      rfl
  · intro s' id n p hstep hthere _ hgone
    cases hstep
    exact hthere (List.append_eq_nil_iff.1 ((contents_addDocuments ..).symm.trans hgone)).1

theorem Agrees.refresh {disk : PyStr → Option CorpusFile} (h : Fits pointId (.refresh disk) s) :
    Agrees tokenize pointId (.refresh disk) s := by
  refine ⟨fun _ _ heq => (by cases heq), fun _ heq => (by cases heq), ?_⟩
  intro s' id n p hstep hthere hp
  cases hstep
  unfold HybridRetriever.refreshLexicalIndex at hp ⊢
  split at hp
  next hnone => exact hthere
  next file docs hsome =>
    obtain ⟨doc, hdoc, rfl⟩ := h file docs hsome id n p hp hthere
    rw [if_neg (List.ne_nil_of_mem hdoc)]
    exact List.ne_nil_of_mem (List.mem_map_of_mem (List.mem_filter.2 ⟨hdoc, decide_eq_true rfl⟩))

end Proofs

def emptyRetriever : HybridRetriever := ⟨.new, ⟨none, fun _ => none⟩, none, none⟩

def oneDoc (embedding : List Rat) : RetrievalDocument := ⟨['a'], ['x'], [], ['d'], embedding⟩

end Velune.Retrieval

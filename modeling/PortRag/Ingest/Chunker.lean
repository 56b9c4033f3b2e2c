import PortRag.Ingest.TextsKept
import PortRag.Ingest.Pipeline

set_option autoImplicit false

/-!
# The chunks of a file

`rag/ingest/chunker.py`.  Docling cuts a parsed document; what it cuts may be blank, and is then
passed over.  The chunks that are left are numbered from zero.
-/

namespace PortRag.Ingest

open PortRag.Foundation

/-- The metadata of a raw chunk, as far as `_json_metadata` tells them apart: what `model_dump`
returns, a `dict`, or the `str` of anything else. -/
inductive RawMeta where
  | model (dumped : Json)
  | dict (members : List (String × Json))
  | other (text : String)
  deriving Inhabited

/-- A chunk as Docling cuts it. -/
structure RawChunk where
  text : String
  metadata : RawMeta
  deriving Inhabited

/-- `_json_metadata`. -/
def jsonMetadata : RawMeta → List (String × Json)
  | .model (.obj members) => members
  | .model dumped => [("value", dumped)]
  | .dict members => members
  | .other text => [("value", .str text)]

/-- `members.setdefault(name, value)`. -/
def setDefault (members : List (String × Json)) (name : String) (value : Json) :
    List (String × Json) :=
  if members.any (fun m => m.1 = name) then members else members ++ [(name, value)]

/-- One turn of the loop of `_chunk_sync`. -/
def chunkTurn (name : String) (chunks : List IngestChunk) (raw : RawChunk) : List IngestChunk :=
  let text := strip raw.text
  if text = "" then chunks
  else
    let metadata := setDefault (jsonMetadata raw.metadata) "source" (.str name)
    chunks ++ [⟨chunks.length, text, .obj metadata⟩]

/-- `HybridDoclingChunker._chunk_sync`, after Docling has cut the document of this name. -/
def chunkSync (name : String) (raw : List RawChunk) : List IngestChunk :=
  raw.foldl (chunkTurn name) []

/-- Chunks as they are numbered and none of them blank. -/
structure WellCut (chunks : List IngestChunk) : Prop where
  seqs : chunks.map (·.seq) = (List.range chunks.length).map Int.ofNat
  texts : ∀ c ∈ chunks, strip c.text ≠ ""

/-- What is left of a text that is not blank is not blank. -/
theorem strip_strip_ne_empty {text : String} (h : strip text ≠ "") : strip (strip text) ≠ "" := by
  rw [Ne, strip_eq_empty, Bool.not_eq_false, heavy, List.any_eq_true]
  rcases hrest : (text.toList.dropWhile isSpace).reverse.dropWhile isSpace with _ | ⟨c, rest⟩
  · rw [strip, hrest] at h
    exact absurd rfl h
  · have hc := List.head?_dropWhile_not isSpace (text.toList.dropWhile isSpace).reverse
    rw [hrest] at hc
    refine ⟨c, ?_, ?_⟩
    · rw [strip, hrest, String.toList_ofList]
      exact List.mem_reverse.mpr List.mem_cons_self
    · simpa using hc

theorem WellCut.turn {name : String} {chunks : List IngestChunk} (h : WellCut chunks)
    (raw : RawChunk) : WellCut (chunkTurn name chunks raw) := by
  unfold chunkTurn
  dsimp only
  split
  · exact h
  · next hblank =>
      refine ⟨?_, ?_⟩
      · rw [List.map_append, List.length_append, List.length_singleton, List.range_succ,
          List.map_append, h.seqs]
        rfl
      · intro c hc
        rcases List.mem_append.mp hc with hold | hnew
        · exact h.texts c hold
        · rw [List.mem_singleton.mp hnew]
          exact strip_strip_ne_empty hblank

/-- Whatever Docling cuts, the chunks are numbered from zero, and none of them is blank. -/
theorem chunkSync_wellCut (name : String) (raw : List RawChunk) : WellCut (chunkSync name raw) :=
  List.foldlRecOn raw (chunkTurn name) (motive := WellCut)
    ⟨rfl, List.forall_mem_nil _⟩ (fun _ h r _ => h.turn r)

/-- The chunker of the run is `HybridDoclingChunker`. -/
def IngestEnv.CutsByDocling (env : IngestEnv) : Prop :=
  ∀ parsed chunks, env.chunk parsed = .ok chunks → ∃ name raw, chunks = chunkSync name raw

end PortRag.Ingest

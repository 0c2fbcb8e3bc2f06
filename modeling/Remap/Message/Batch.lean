import Remap.Message.Metadata

/-!
Messages travel in batches.  A part is raw content with its metadata; a batch is a list of parts
addressed by index, and every operation that takes an index says how it failed.
-/

namespace Remap

structure Part where
  content : Bytes
  metadata : Metadata
deriving DecidableEq

namespace Part

def ofContent (content : Bytes) : Part :=
  ⟨content, .empty⟩

/-- The content as text; bytes that are not UTF-8 become replacement characters. -/
def text (part : Part) : List Char :=
  Utf8.decodeLossy part.content

/-- The content as a document, if it is one. -/
def document? (part : Part) : Option Value :=
  Json.readBytes? part.content

def withDocument (part : Part) (document : Value) : Part :=
  { part with content := Utf8.encode (Json.print document) }

end Part

/-- Why a batch refused an operation. -/
inductive BatchError
  | noPart (index size : Nat)
  | notJson
deriving Repr, DecidableEq

def BatchError.message : BatchError → String
  | .noPart index size => s!"message part index {index} is out of bounds for a batch of {size}"
  | .notJson => "failed to parse message part as JSON"

structure Batch where
  parts : List Part
deriving DecidableEq

namespace Batch

def empty : Batch :=
  ⟨[]⟩

def ofContents (contents : List Bytes) : Batch :=
  ⟨contents.map Part.ofContent⟩

def size (batch : Batch) : Nat :=
  batch.parts.length

def push (batch : Batch) (part : Part) : Batch :=
  ⟨batch.parts ++ [part]⟩

def get (batch : Batch) (index : Nat) : Except BatchError Part :=
  match batch.parts[index]? with
  | some part => .ok part
  | none => .error (.noPart index batch.size)

/-- Change one part and no other. -/
def modify (batch : Batch) (index : Nat) (change : Part → Part) : Except BatchError Batch :=
  (batch.get index).map fun part => ⟨batch.parts.set index (change part)⟩

/-- Replace the metadata of a part; outside the batch there is none to replace. -/
def setMetadata (batch : Batch) (index : Nat) (metadata : Metadata) : Batch :=
  ⟨batch.parts.modify index ({ · with metadata })⟩

/-- The document in a part. -/
def read (batch : Batch) (index : Nat) : Except BatchError Value := do
  let part ← batch.get index
  match part.document? with
  | some document => .ok document
  | none => .error .notJson

/-- Make a document the content of a part. -/
def write (batch : Batch) (index : Nat) (document : Value) : Except BatchError Batch :=
  batch.modify index (·.withDocument document)

theorem get_eq_ok_iff {batch : Batch} {index : Nat} {part : Part} :
    batch.get index = .ok part ↔ batch.parts[index]? = some part := by
  rw [get]
  split
  · rename_i found hfound
    rw [hfound, Except.ok.injEq, Option.some.injEq]
  · rename_i hnone
    simp [hnone]

end Batch

end Remap

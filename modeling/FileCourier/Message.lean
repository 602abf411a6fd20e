import FileCourier.ByteMap

/-!
Messages: the keyed payload of one request to the master or one reply from it.
-/

namespace FileCourier

/-- What a field of a message holds. -/
inductive Value where
  | bool (b : Bool)
  | int (n : Int64)
  | bytes (s : Bytes)
  | list (items : List Bytes)
  | map (entries : ByteMap (List Bytes))
  deriving DecidableEq

/-- The fields of a request or reply. -/
structure Message where
  fields : ByteMap Value
  deriving DecidableEq

namespace Message

def empty : Message := ⟨.empty⟩

instance : Inhabited Message := ⟨empty⟩

/-- The message with the given fields, where a later field replaces an earlier one of its name. -/
def ofList (l : List (Bytes × Value)) : Message := ⟨.ofList l⟩

def set (m : Message) (key : Bytes) (value : Value) : Message := ⟨m.fields.insert key value⟩

def erase (m : Message) (key : Bytes) : Message := ⟨m.fields.erase key⟩

def has (m : Message) (key : Bytes) : Bool := m.fields.contains key

/-- A byte string field; `fallback` when it is missing or of another kind. -/
def bytesOr (m : Message) (key fallback : Bytes) : Bytes :=
  match m.fields.get? key with
  | some (.bytes s) => s
  | _ => fallback

/-- An integer field; `fallback` when it is missing or of another kind. -/
def intOr (m : Message) (key : Bytes) (fallback : Int64) : Int64 :=
  match m.fields.get? key with
  | some (.int n) => n
  | _ => fallback

/-- A truth value. Masters may send one as an integer, where all but zero is true. -/
def boolOr (m : Message) (key : Bytes) (fallback : Bool) : Bool :=
  match m.fields.get? key with
  | some (.bool b) => b
  | some (.int n) => n != 0
  | _ => fallback

/-- A list field; empty when it is missing or of another kind. -/
def list (m : Message) (key : Bytes) : List Bytes :=
  match m.fields.get? key with
  | some (.list items) => items
  | _ => []

/-- A map field; empty when it is missing or of another kind. -/
def map (m : Message) (key : Bytes) : ByteMap (List Bytes) :=
  match m.fields.get? key with
  | some (.map entries) => entries
  | _ => .empty

end Message

end FileCourier

import Positional.Proofs.Wire.Primitives
import Positional.Proofs.Wire.Words

/-!
# Primitives in a row

Values of any primitive types, written one after the other, come back in the same order when the same
types are asked for, whatever follows them. What is asked for may also be a fixed number of bytes.
-/

namespace Positional

inductive Item where
  | varint (n : UInt64)
  | svarint (n : Int64)
  | double (x : Binary64)
  | boolean (flag : Bool)
  | fixed64 (n : Int64)
  | bytes (content : Bytes)
  | text (content : String)
deriving DecidableEq

inductive Request where
  | varint
  | svarint
  | double
  | boolean
  | fixed64
  | bytes
  | text
  | exact (count : Nat)
deriving DecidableEq

namespace Request

def read : Request → Reader Item
  | varint => return .varint (← Reader.varint)
  | svarint => return .svarint (← Reader.svarint)
  | double => return .double (← Reader.double)
  | boolean => return .boolean (← Reader.boolean)
  | fixed64 => return .fixed64 (← Reader.fixed64)
  | bytes => return .bytes (← Reader.lengthPrefixed)
  | text => return .text (← Reader.text)
  | exact count => return .bytes (← Reader.exact count)

end Request

namespace Item

def write : Item → Bytes
  | varint n => Wire.varint n.toNat
  | svarint n => Wire.svarint n
  | double x => Wire.double x
  | boolean flag => Wire.boolean flag
  | fixed64 n => Wire.fixed64 n
  | bytes content => Wire.lengthPrefixed content
  | text content => Wire.lengthPrefixed (Wire.utf8 content)

def writeAll (items : List Item) : Bytes :=
  items.foldl (fun buffer item => buffer ++ item.write) []

theorem writeAll_eq_flatMap (items : List Item) : writeAll items = items.flatMap write :=
  List.flatMap_eq_foldl.symm

def request : Item → Request
  | varint _ => .varint
  | svarint _ => .svarint
  | double _ => .double
  | boolean _ => .boolean
  | fixed64 _ => .fixed64
  | bytes _ => .bytes
  | text _ => .text

def payload : Item → Bytes
  | bytes content => content
  | text content => Wire.utf8 content
  | _ => []

theorem returns_read (item : Item) :
    Reader.Returns (item.payload.length < UInt64.size) item.request.read item.write item := by
  cases item with
  | varint n => exact ((Reader.returns_varint_toNat n).map _).mono fun _ => trivial
  | svarint n => exact ((Reader.returns_svarint n).map _).mono fun _ => trivial
  | double x => exact ((Reader.returns_double x).map _).mono fun _ => trivial
  | boolean flag => exact ((Reader.returns_boolean flag).map _).mono fun _ => trivial
  | fixed64 n => exact ((Reader.returns_fixed64 n).map _).mono fun _ => trivial
  | bytes content => exact (Reader.returns_lengthPrefixed content).map _
  | text content => exact (Reader.returns_text content).map _

theorem returns_mapM (items : List Item) :
    Reader.Returns (∀ item ∈ items, item.payload.length < UInt64.size)
      ((items.map request).mapM Request.read) (items.flatMap write) items := by
  induction items with
  | nil =>
    rw [List.map_nil, List.mapM_nil]
    exact (Reader.Returns.pure []).mono fun _ => trivial
  | cons item items ih =>
    rw [List.map_cons, List.mapM_cons, List.flatMap_cons]
    exact (item.returns_read.bind (ih.map (item :: ·))).mono List.forall_mem_cons.mp

/-- Items that are written one after the other are read back in order, each as it was, and what was
appended after them is what is left; the lengths of contents are numbers of 64 bits. Signed numbers go
by a bijection, which in words of 64 bits is a shift and a turn of the bits. -/
theorem mapM_read_writeAll :
    (∀ items : List Item, (∀ item ∈ items, item.payload.length < UInt64.size) → ∀ more : Bytes,
      ((items.map request).mapM Request.read).run (Cursor.start (writeAll items ++ more))
        = (.ok items, ⟨(writeAll items).length, more⟩)) ∧
    (∀ n, Wire.unzigzag (Wire.zigzag n) = n) ∧ (∀ code, Wire.zigzag (Wire.unzigzag code) = code) ∧
    (∀ n, Wire.zigzag n = ((n <<< 1) ^^^ (n >>> 63)).toUInt64) ∧
    ∀ code, Wire.unzigzag code = (code >>> 1).toInt64 ^^^ -(code &&& 1).toInt64 := by
  refine ⟨fun items h more => ?_, Wire.unzigzag_zigzag, Wire.zigzag_unzigzag, Wire.zigzag_eq_words,
    Wire.unzigzag_eq_words⟩
  rw [writeAll_eq_flatMap]
  rcases returns_mapM items 0 more with hrun | ⟨hno, -⟩
  · rwa [Nat.zero_add] at hrun
  · exact absurd h hno

/-- The edges of each type: the greatest code, the least integer, a NaN with a payload, and two bytes
for one character. -/
theorem mapM_read_writeAll_edges :
    let items := [varint 18446744073709551615, svarint Int64.minValue, double ⟨0x7ff0000000000001⟩,
      boolean true, fixed64 Int64.minValue, bytes [0, 255], text "é"]
    (∀ item ∈ items, item.payload.length < UInt64.size) ∧
      ((items.map request).mapM Request.read).run (Cursor.start (writeAll items ++ [9, 9]))
        = (.ok items, ⟨(writeAll items).length, [9, 9]⟩) ∧
      Wire.zigzag Int64.minValue = 18446744073709551615 := by
  intro items
  have hcount : ∀ item ∈ items, item.payload.length < UInt64.size := by decide
  obtain ⟨hread, -, -, hwords, -⟩ := mapM_read_writeAll
  exact ⟨hcount, hread items hcount [9, 9], (hwords _).trans (by decide)⟩

end Item

end Positional

import Abi.Basic

/-!
# Types and values

A `Type` of the package is a node of a type tree: a `kind`, a `size`, an element type
`elem`, the elements of a tuple `tuple`, the canonical text `raw` and the reflect type
`t` of the Go values of the type. Its declaration, the type parser and the predicates on
it live in `type.go`, which is not in the repository; the fields are those `clone.go`
copies, and what the predicates compute is taken from the spec.

* `Typ`: a `*Type`, `nil` or a node; `TupleElem`: a name, an element type and the
  `Indexed` flag;
* `Typ.isDynamicType`, `Typ.isVariableInput`: modelled from the spec (§4.2);
* `Typ.all`: a property of every node of a tree; `Typ.WellFormed`: the invariants of the
  spec's data model (§3) at every node;
* `Typ.words`: the number of 32-byte words of the head of a static type;
* `Value`: what `Decode` returns.
-/

namespace Abi

/-- The kinds of types: `KindBool`, `KindInt`, `KindUInt`, .... -/
inductive Kind
  | bool
  | int
  | uInt
  | address
  | string
  | bytes
  | fixedBytes
  | function
  | array
  | slice
  | tuple
  deriving DecidableEq, Repr

/-- What the code reads of a `reflect.Type`: its `Kind()`, when it is one of the
    fixed-width integer kinds `readInteger` dispatches on. `other` is the reflect type
    `NewType` (in the missing `type.go`) gives a node of its kind and size otherwise:
    `*big.Int` for an integer of another width, `[size]byte` for fixed bytes, `[size]E` and
    `[]E` over the element's reflect type for an array and a slice, and the type of the
    value `decode` returns for the other kinds. `nil` is no type at all. -/
inductive RType
  | nil
  | uint8
  | uint16
  | uint32
  | uint64
  | int8
  | int16
  | int32
  | int64
  | other
  deriving DecidableEq, Repr

mutual
/-- A `*Type`: `nil`, or a node with the fields `kind`, `size`, `elem`, `tuple` (`none`
    for a nil slice), `raw` and `t`. -/
inductive Typ where
  | nil
  | mk (kind : Kind) (size : Int) (elem : Typ) (tuple : Option (List TupleElem))
      (raw : String) (t : RType)
/-- A `*TupleElem`: the `Name`, `Elem` and `Indexed` of an element of a tuple. -/
inductive TupleElem where
  | mk (name : String) (elem : Typ) (indexed : Bool)
end

namespace TupleElem

def name : TupleElem → String
  | mk name _ _ => name

def elem : TupleElem → Typ
  | mk _ elem _ => elem

def indexed : TupleElem → Bool
  | mk _ _ indexed => indexed

@[simp] theorem name_mk (n : String) (e : Typ) (i : Bool) : (mk n e i).name = n := rfl
@[simp] theorem elem_mk (n : String) (e : Typ) (i : Bool) : (mk n e i).elem = e := rfl
@[simp] theorem indexed_mk (n : String) (e : Typ) (i : Bool) : (mk n e i).indexed = i := rfl

end TupleElem

namespace Typ

/-- The nil `*Type`. -/
def isNil : Typ → Bool
  | nil => true
  | mk .. => false

/-- The elements of a tuple type (none for a nil slice). -/
def elems : Typ → List TupleElem
  | mk _ _ _ (some elems) _ _ => elems
  | _ => []

mutual
/-- Modelled from the spec (§4.2; `isDynamicType` is in the missing `type.go`): a string,
    bytes or slice type, an array of a dynamic element type, or a tuple with a dynamic
    element. -/
def isDynamicType : Typ → Bool
  | mk .string .. | mk .bytes .. | mk .slice .. => true
  | mk .array _ elem _ _ _ => elem.isDynamicType
  | mk .tuple _ _ (some elems) _ _ => anyDynamic elems
  | _ => false

/-- Some element of a tuple is of a dynamic type. -/
def anyDynamic : List TupleElem → Bool
  | [] => false
  | .mk _ elem _ :: elems => elem.isDynamicType || anyDynamic elems
end

/-- Modelled from the spec (§4.2; `isVariableInput` is in the missing `type.go`): a string,
    bytes or slice type, whose encoding starts with a length. -/
def isVariableInput : Typ → Bool
  | mk .string .. | mk .bytes .. | mk .slice .. => true
  | _ => false

mutual
/-- The number of 32-byte words of the head of a static type: one for a primitive, the
    sum over the elements for a tuple, `k` times the element's for an array of `k`. -/
def words : Typ → Nat
  | nil => 0
  | mk .tuple _ _ (some elems) _ _ => wordsOf elems
  | mk .tuple _ _ none _ _ => 0
  | mk .array size elem _ _ _ => size.toNat * elem.words
  | mk .. => 1

/-- The words of the heads of the elements of a tuple. -/
def wordsOf : List TupleElem → Nat
  | [] => 0
  | .mk _ elem _ :: elems => elem.words + wordsOf elems
end

mutual
/-- `p` holds at every node of a type tree. -/
def all (p : Typ → Bool) : Typ → Bool
  | nil => p nil
  | t@(mk _ _ elem none _ _) => p t && elem.all p
  | t@(mk _ _ elem (some elems) _ _) => p t && elem.all p && allOf p elems

/-- `p` holds at every node of the types of the elements of a tuple. -/
def allOf (p : Typ → Bool) : List TupleElem → Bool
  | [] => true
  | .mk _ elem _ :: elems => elem.all p && allOf p elems
end

/-- Modelled from the spec (§9, integers are read by native width; the reflect types are
    set in the missing `type.go`): the reflect type of the Go values of an integer type,
    the Go integer type of its width for 8, 16, 32 and 64 bits, and `*big.Int` else. -/
def intRType (kind : Kind) (size : Int) : RType :=
  match kind with
  | .uInt =>
    if size = 8 then .uint8 else if size = 16 then .uint16
    else if size = 32 then .uint32 else if size = 64 then .uint64 else .other
  | _ =>
    if size = 8 then .int8 else if size = 16 then .int16
    else if size = 32 then .int32 else if size = 64 then .int64 else .other

/-- The bytes the Go value of a node takes on a 64-bit platform, by the reflect type
    `NewType` gives the node (`RType.other` above): a `bool` or an 8-bit integer one, the
    other native integers their width, a `*big.Int` a pointer, a `web3.Address` 20, a
    string header 16, a `[]byte` or slice header 24, fixed bytes their size, a function's
    `[24]byte` 24, an array its size times its element's, and a tuple's map a pointer. -/
def goSize : Typ → Nat
  | nil => 0
  | mk kind size elem _ _ t =>
    match kind with
    | .bool => 1
    | .int | .uInt =>
      match t with
      | .uint8 | .int8 => 1
      | .uint16 | .int16 => 2
      | .uint32 | .int32 => 4
      | _ => 8
    | .address => 20
    | .string => 16
    | .bytes | .slice => 24
    | .fixedBytes => size.toNat
    | .function => 24
    | .array => size.toNat * elem.goSize
    | .tuple => 8

/-- The invariants of the spec's data model (§3) at one node: an integer is 8 to 256 bits
    wide, in steps of 8, with the reflect type of its width; fixed bytes are 1 to 32
    long; an array has an element type and a size that is a Go `int` no less than zero; a
    slice has an element type, and so has every element of a tuple. -/
def wellFormedNode : Typ → Bool
  | mk kind size elem tuple _ t =>
    match kind with
    | .int | .uInt => 8 ≤ size && size ≤ 256 && size % 8 == 0 && t == intRType kind size
    | .fixedBytes => 1 ≤ size && size ≤ 32
    | .array => 0 ≤ size && size < 2 ^ 63 && !elem.isNil
    | .slice => !elem.isNil
    | .tuple => (tuple.getD []).all fun e => !e.elem.isNil
    | _ => true
  | nil => true

/-- A type tree satisfying the invariants of the spec's data model at every node. -/
def WellFormed (t : Typ) : Prop := t.all wellFormedNode

instance (t : Typ) : Decidable t.WellFormed := inferInstanceAs (Decidable (_ = true))

theorem all_mk (p : Typ → Bool) (kind : Kind) (size : Int) (elem : Typ)
    (tuple : Option (List TupleElem)) (raw : String) (t : RType) :
    (mk kind size elem tuple raw t).all p =
      (p (mk kind size elem tuple raw t) && elem.all p && (tuple.map (allOf p)).getD true) := by
  cases tuple <;> simp [all]

end Typ

/-- What `Decode` returns, by the dynamic type of the Go value: a `bool`; an integer (an
    `uint8` to `int64`, or a `*big.Int`); a `string` or a `[]byte`, by their bytes; a
    `web3.Address`, a fixed-size byte array or the `[24]byte` of a function; an array or
    a slice, built by reflection; or the `map[string]interface{}` of a tuple, by its
    entries in the order they were put. -/
inductive Value where
  | bool (b : Bool)
  | int (i : Int)
  | string (s : Bytes)
  | bytes (b : Bytes)
  | address (a : Bytes)
  | fixedBytes (b : Bytes)
  | function (f : Bytes)
  | array (vs : List Value)
  | tuple (entries : List (String × Value))

/-! ## Types of the examples -/

/-- The type `bool`. -/
def boolType : Typ := .mk .bool 0 .nil none "bool" .other

/-- The type `string`. -/
def stringType : Typ := .mk .string 0 .nil none "string" .other

end Abi

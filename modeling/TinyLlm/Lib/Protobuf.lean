/-
# `TinyLlm.Lib.Protobuf` — the protobuf wire format as relations

What a byte string may look like, whoever wrote it.  `Varint v bs` says that
`bs` spells `v` seven bits at a time, the lowest first, every byte but the
last marked; zeros may be spelled behind the last bits that count, so a number
has any number of padded spellings.  A field is a key, the field number and the
wire type in one varint, before what its wire type says.
-/
import Mathlib.Data.UInt
import Mathlib.Tactic.Common

namespace Protobuf

/-- The spellings of a number. -/
inductive Varint : Nat → List UInt8 → Prop
  | last {c : UInt8} : c.toNat < 128 → Varint c.toNat [c]
  | more {c : UInt8} {v : Nat} {bs : List UInt8} :
      128 ≤ c.toNat → Varint v bs → Varint (c.toNat - 128 + 128 * v) (c :: bs)

theorem Varint.ne_nil {v : Nat} {bs : List UInt8} (h : Varint v bs) : bs ≠ [] := by
  cases h <;> exact List.cons_ne_nil _ _

/-- What follows the key of a field, for the wire types 0, 2 and 5. -/
inductive Payload : Nat → List UInt8 → Prop
  | varint {v : Nat} {bs : List UInt8} : Varint v bs → Payload 0 bs
  | bytes {len data : List UInt8} : Varint data.length len → Payload 2 (len ++ data)
  | fixed32 {bs : List UInt8} : bs.length = 4 → Payload 5 bs

theorem Payload.lt {wt : Nat} {bs : List UInt8} (h : Payload wt bs) : wt < 8 := by
  cases h <;> decide

/-- The key of a field. -/
def Key (fld wt : Nat) (bs : List UInt8) : Prop := Varint (fld * 8 + wt) bs

/-- The spellings of a field. -/
inductive Field : Nat → Nat → List UInt8 → Prop
  | mk {fld wt : Nat} {key payload : List UInt8} :
      Key fld wt key → Payload wt payload → Field fld wt (key ++ payload)

/-- The spellings of a field that holds bytes. -/
inductive BytesField (fld : Nat) (data : List UInt8) : List UInt8 → Prop
  | mk {key len : List UInt8} :
      Key fld 2 key → Varint data.length len → BytesField fld data (key ++ (len ++ data))

theorem Field.ne_nil {fld wt : Nat} {f : List UInt8} (h : Field fld wt f) : f ≠ [] := by
  cases h with
  | mk hkey _ => exact List.append_ne_nil_of_left_ne_nil (Varint.ne_nil hkey) _

theorem BytesField.ne_nil {fld : Nat} {data f : List UInt8} (h : BytesField fld data f) :
    f ≠ [] := by
  cases h with
  | mk hkey _ => exact List.append_ne_nil_of_left_ne_nil (Varint.ne_nil hkey) _

end Protobuf

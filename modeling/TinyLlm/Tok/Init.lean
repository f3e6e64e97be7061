/-
# `TinyLlm.Tok.Init` — `tq_tokenizer_init`

The tokenizer of an opened model: four pointers into the mapped image, from
the offsets that the directory walk stored.  An offset of zero is a tensor that
the file does not have.  Nothing that the pointers lead to is looked at.

`ofBits` is what a score is read as; four bytes of the file each.
-/
import TinyLlm.Model.Open
import TinyLlm.Tok.Piece

namespace TinyLlm

open Bytes

/-- A header field of 32 bits, stored in an `int32_t`. -/
def tokenOf (v : Nat) : Int := (BitVec.ofNat 32 v).toInt

def tqTokenizerInit {S : Type} (ofBits : UInt32 → S) (st : TqStore) (m : TqModel) (bufBytes : Nat) :
    Except TqStatus (TqTokenizer S) :=
  match st.backing with
  | .stream _ _ => .error .errUnsupported
  | .mapped base =>
      if m.tokScores = 0 ∨ m.tokOffs = 0 ∨ m.tokBlob = 0 ∨ m.tokSorted = 0 then .error .errMissing
      else if bufBytes < 64 then .error .errNomem
      else .ok
        { scores := fun i => ofBits (UInt32.ofNat (leAt base (m.tokScores + 4 * i) 4))
          offs := fun i => UInt32.ofNat (leAt base (m.tokOffs + 4 * i) 4)
          sorted := fun i => UInt32.ofNat (leAt base (m.tokSorted + 4 * i) 4)
          blob := base.drop m.tokBlob
          vocabSize := m.vocabSize
          bos := tokenOf m.hdr.bosToken
          eos := tokenOf m.hdr.eosToken
          bufBytes := bufBytes }

end TinyLlm

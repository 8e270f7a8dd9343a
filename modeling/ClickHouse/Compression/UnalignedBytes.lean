import Mathlib.Data.Nat.Notation
import ClickHouse.Lib.Except
import ClickHouse.Common.ErrorCodes

/-! The payload layout shared by the Delta, DoubleDelta and Gorilla codecs: the value width,
the number `n % w` of leading bytes that do not fill a value, those bytes verbatim, then the
encoding of the values. Each `doCompressData` is `compressUnaligned` at its own width and its own
`compressDataForType`; the decoders check the header differently and keep their own bodies. -/

namespace ClickHouse.Compression

open ClickHouse.Lib ClickHouse.Common

/-- The widths the codecs' `switch` accepts. -/
def IsDataBytesSize (n : ℕ) : Prop := n = 1 ∨ n = 2 ∨ n = 4 ∨ n = 8

instance (n : ℕ) : Decidable (IsDataBytesSize n) := inferInstanceAs (Decidable (_ ∨ _))

def compressUnaligned (dataBytesSize : UInt8)
    (compressDataForType : ℕ → List UInt8 → Except ErrorCode (List UInt8)) (source : List UInt8) :
    Except ErrorCode (List UInt8) :=
  let w := dataBytesSize.toNat
  let bytesToSkip := source.length % w
  if IsDataBytesSize w then do
    let body ← compressDataForType w (source.drop bytesToSkip)
    pure (dataBytesSize :: UInt8.ofNat bytesToSkip :: (source.take bytesToSkip ++ body))
  else .error .logicalError

lemma pos_of_isDataBytesSize {n : ℕ} (h : IsDataBytesSize n) : 0 < n := by
  rcases h with h | h | h | h <;> omega

lemma le_eight_of_isDataBytesSize {n : ℕ} (h : IsDataBytesSize n) : n ≤ 8 := by
  rcases h with h | h | h | h <;> omega

lemma length_take_mod (source : List UInt8) (w : ℕ) :
    (source.take (source.length % w)).length = source.length % w := by
  rw [List.length_take]
  exact Nat.min_eq_left (Nat.mod_le _ _)

lemma length_drop_mod (source : List UInt8) (w : ℕ) :
    (source.drop (source.length % w)).length % w = 0 := by
  rw [List.length_drop]
  exact Nat.sub_mod_eq_zero_of_mod_eq (Nat.mod_mod _ _).symm

lemma compressUnaligned_eq {dataBytesSize : UInt8} (hw : IsDataBytesSize dataBytesSize.toNat)
    {f : ℕ → List UInt8 → Except ErrorCode (List UInt8)} {source body : List UInt8}
    (h : f dataBytesSize.toNat (source.drop (source.length % dataBytesSize.toNat)) = .ok body) :
    compressUnaligned dataBytesSize f source =
      .ok (dataBytesSize :: UInt8.ofNat (source.length % dataBytesSize.toNat) ::
        (source.take (source.length % dataBytesSize.toNat) ++ body)) := by
  rw [compressUnaligned, if_pos hw, h]
  rfl

lemma drop_unaligned (a b : UInt8) (source body : List UInt8) (w : ℕ) :
    (a :: b :: (source.take (source.length % w) ++ body)).drop (2 + source.length % w) = body := by
  rw [show 2 + source.length % w = source.length % w + 1 + 1 by omega, List.drop_succ_cons,
    List.drop_succ_cons, List.drop_left' (length_take_mod source w)]

lemma take_unaligned (a b : UInt8) (source body : List UInt8) (w : ℕ) :
    ((a :: b :: (source.take (source.length % w) ++ body)).drop 2).take (source.length % w) =
      source.take (source.length % w) :=
  List.take_left' (length_take_mod source w)

end ClickHouse.Compression

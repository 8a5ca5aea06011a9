import ChartPipeline.Digest.Sha256
import ChartPipeline.Text.NumberText
import Mathlib.Tactic.IntervalCases

/-!
# A digest tells the hash

The hexadecimal digits of a hash tell its words, and the bytes of a text tell the text.  So two
texts have one digest only if they are equal or the hash of their bytes collides.

## Key results

- `Sha256.hash_eq_of_hexDigest`: texts with one digest have one hash
- `Sha256.eq_of_hexDigest`: texts that do not collide are told by their digests
-/

namespace ChartPipeline

/-! ### Bytes -/

/-- The loop puts the bytes from its place on behind those that it has, which stand in reverse. -/
theorem toList_loop (bs : ByteArray) (i : Nat) (r : List UInt8) :
    ByteArray.toList.loop bs i r = r.reverse ++ bs.data.toList.drop i := by
  fun_induction ByteArray.toList.loop bs i r with
  | case1 i r hi ih =>
    have hlt : i < bs.data.toList.length := by simpa using hi
    have hget : bs.get! i = bs.data.toList[i] := by simp [ByteArray.get!, hi]
    rw [ih, List.reverse_cons, List.append_assoc, List.singleton_append, hget,
      ← List.drop_eq_getElem_cons hlt]
  | case2 i r hi =>
    rw [List.drop_eq_nil_of_le (by simpa using hi), List.append_nil]

/-- The bytes tell the array. -/
theorem toList_injective {bs bs' : ByteArray} (h : bs.toList = bs'.toList) : bs = bs' := by
  have hlist (bs : ByteArray) : bs.toList = bs.data.toList := toList_loop bs 0 []
  rw [hlist, hlist] at h
  exact ByteArray.ext (Array.toList_inj.1 h)

/-! ### Hexadecimal digits -/

namespace Quoted

/-- The number that hexadecimal digits stand for. -/
def hexNumber (cs : List Char) : Nat :=
  cs.foldl (fun n c => n * 16 + (NumberText.hexDigit? c).getD 0) 0

/-- A hexadecimal digit is read as what it was written for. -/
theorem hexDigit?_digitChar {d : Nat} (hd : d < 16) :
    NumberText.hexDigit? d.digitChar = some d := by
  interval_cases d <;> rfl

/-- One more digit stands for itself, and the others for sixteen times as much. -/
theorem hexNumber_append_digit (cs : List Char) {d : Nat} (hd : d < 16) :
    hexNumber (cs ++ [d.digitChar]) = hexNumber cs * 16 + d := by
  rw [hexNumber, List.foldl_append, List.foldl_cons, List.foldl_nil, hexDigit?_digitChar hd]
  rfl

/-- The digits of a number stand for it. -/
theorem hexNumber_toDigits (n : Nat) : hexNumber (Nat.toDigits 16 n) = n := by
  -- on the number: all but its last digit are those of a smaller one
  induction n using Nat.strongRecOn with
  | ind n ih =>
    rw [Nat.toDigits_eq_if (by decide)]
    split
    · next hn => exact (hexNumber_append_digit [] hn).trans (by simp [hexNumber])
    · next hn =>
      rw [hexNumber_append_digit _ (by omega), ih _ (by omega)]
      omega

/-- So do they with zeros in front. -/
theorem hexNumber_hex (width n : Nat) : hexNumber (hex width n) = n := by
  have hzeros (k : Nat) (cs : List Char) :
      hexNumber (List.replicate k '0' ++ cs) = hexNumber cs := by
    induction k with
    | zero => rfl
    | succ k ih => exact ih
  rw [hex, hzeros, hexNumber_toDigits]

/-- Digits are filled up to the width if the number fits. -/
theorem length_hex {width n : Nat} (hw : 0 < width) (hn : n < 16 ^ width) :
    (hex width n).length = width := by
  have hlen := (Nat.length_toDigits_le_iff (by decide) hw).2 hn
  rw [hex, List.length_append, List.length_replicate]
  omega

end Quoted

namespace Sha256

/-- Pieces of one length are told by what they make up. -/
theorem eq_of_flatMap_eq {α β : Type} {f : α → List β} {k : Nat} (hk : 0 < k)
    (hlen : ∀ a, (f a).length = k) (hf : ∀ a b, f a = f b → a = b) {as bs : List α}
    (h : as.flatMap f = bs.flatMap f) : as = bs := by
  -- piece by piece; where one list has no more, the other has none either
  induction as generalizing bs with
  | nil =>
    cases bs with
    | nil => rfl
    | cons b bs =>
      have hempty := (List.append_eq_nil_iff.1 h.symm).1
      have hb := hlen b
      rw [hempty, List.length_nil] at hb
      omega
  | cons a as ih =>
    cases bs with
    | nil =>
      have hempty := (List.append_eq_nil_iff.1 h).1
      have ha := hlen a
      rw [hempty, List.length_nil] at ha
      omega
    | cons b bs =>
      obtain ⟨hfirst, hrest⟩ := List.append_inj h ((hlen a).trans (hlen b).symm)
      rw [hf a b hfirst, ih hrest]

/-- Texts with one digest have one hash. -/
theorem hash_eq_of_hexDigest {s t : String} (h : hexDigest s = hexDigest t) :
    hash s.toUTF8.toList = hash t.toUTF8.toList := by
  have hdigits := congrArg String.toList h
  rw [hexDigest, hexDigest, String.toList_ofList, String.toList_ofList] at hdigits
  -- every word makes up eight digits, which tell it
  refine eq_of_flatMap_eq (k := 8) (by decide) (fun w => ?_) (fun w w' hw => ?_) hdigits
  · exact Quoted.length_hex (by decide) w.toNat_lt
  · rw [← UInt32.toNat_inj, ← Quoted.hexNumber_hex 8 w.toNat, hw, Quoted.hexNumber_hex]

/-- The hashes of two texts do not collide. -/
def Apart (s t : String) : Prop :=
  hash s.toUTF8.toList = hash t.toUTF8.toList → s.toUTF8.toList = t.toUTF8.toList

/-- Texts that do not collide are told by their digests. -/
theorem eq_of_hexDigest {s t : String} (hapart : Apart s t) (h : hexDigest s = hexDigest t) :
    s = t :=
  String.toByteArray_inj.1 (toList_injective (hapart (hash_eq_of_hexDigest h)))

end Sha256

end ChartPipeline

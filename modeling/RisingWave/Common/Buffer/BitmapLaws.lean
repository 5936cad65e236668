import Mathlib
import RisingWave.Common.Buffer.BitmapBuilder

/-!
# Laws of the bitmap operations

A valid bitmap is determined by its bits (`Valid.ext`), so two ways of computing a bitmap agree
as soon as both give valid bitmaps with the same bits. The owned forms of `&` and `|` call the
reference ones with the operands the other way round, and agree with them; `!` undone by `!`
gives the bitmap back; collecting `iter` into a bitmap gives the bitmap back; and appending bits
to a builder one at a time builds what `from_bool_slice` builds from them.
-/

namespace RisingWave.Common.Buffer

open PackedBits

namespace Bitmap

variable {a b : Bitmap}

/-- Every form of `&` gives the same valid bitmap, of the bits set on both sides. -/
theorem bitand_bitandOwned_spec (ha : a.Valid) (hb : b.Valid) (hn : a.numBits = b.numBits)
    (h32 : a.numBits < 2 ^ 32) :
    ∃ c, a.bitand b = some c ∧ a.bitandOwned b = some c ∧ c.Valid ∧
      c.bools = List.zipWith (· && ·) a.bools b.bools := by
  obtain ⟨c, hc, hcv, hcb⟩ := bitand_spec ha hb hn h32
  obtain ⟨d, hd, hdv, hdb⟩ := bitand_spec hb ha hn.symm (hn ▸ h32)
  -- the owned form computes `b & a`, which has the same bits
  have hdc : d = c := Valid.ext hdv hcv (by
    rw [hdb, hcb, List.zipWith_comm_of_comm Bool.and_comm])
  exact ⟨c, hc, by rw [bitandOwned, hd, hdc], hcv, hcb⟩

theorem bitand_bitandOwned_spec_two_words :
    ∃ c, (fromBoolSlice [true, false, true]).bitand (fromBoolSlice [true, true, false]) = some c ∧
      (fromBoolSlice [true, false, true]).bitandOwned (fromBoolSlice [true, true, false]) =
        some c ∧ c.Valid ∧
      c.bools = List.zipWith (· && ·) (fromBoolSlice [true, false, true]).bools
        (fromBoolSlice [true, true, false]).bools :=
  bitand_bitandOwned_spec (fromBoolSlice_valid (by norm_num)) (fromBoolSlice_valid (by norm_num))
    rfl (by norm_num [fromBoolSlice])

/-- Every form of `|` gives the same valid bitmap, of the bits set on either side. -/
theorem bitor_bitorOwned_spec (ha : a.Valid) (hb : b.Valid) (hn : a.numBits = b.numBits)
    (h32 : a.numBits < 2 ^ 32) :
    ∃ c, a.bitor b = some c ∧ a.bitorOwned b = some c ∧ c.Valid ∧
      c.bools = List.zipWith (· || ·) a.bools b.bools := by
  obtain ⟨c, hc, hcv, hcb⟩ := bitor_spec ha hb hn h32
  obtain ⟨d, hd, hdv, hdb⟩ := bitor_spec hb ha hn.symm (hn ▸ h32)
  have hdc : d = c := Valid.ext hdv hcv (by
    rw [hdb, hcb, List.zipWith_comm_of_comm Bool.or_comm])
  exact ⟨c, hc, by rw [bitorOwned, hd, hdc], hcv, hcb⟩

theorem bitor_bitorOwned_spec_two_words :
    ∃ c, (fromBoolSlice [true, false, false]).bitor (fromBoolSlice [false, true, false]) = some c ∧
      (fromBoolSlice [true, false, false]).bitorOwned (fromBoolSlice [false, true, false]) =
        some c ∧ c.Valid ∧
      c.bools = List.zipWith (· || ·) (fromBoolSlice [true, false, false]).bools
        (fromBoolSlice [false, true, false]).bools :=
  bitor_bitorOwned_spec (fromBoolSlice_valid (by norm_num)) (fromBoolSlice_valid (by norm_num))
    rfl (by norm_num [fromBoolSlice])

/-- `!` flips every bit of a valid bitmap, and a second `!` gives the bitmap back. -/
theorem not_involutive_spec (ha : a.Valid) :
    ∃ c, a.not = some c ∧ c.Valid ∧ c.bools = a.bools.map (!·) ∧ c.not = some a := by
  obtain ⟨c, hc, hcv, hcb⟩ := not_spec ha
  obtain ⟨d, hd, hdv, hdb⟩ := not_spec hcv
  have hda : d = a := Valid.ext hdv ha (by
    rw [hdb, hcb, List.map_map,
      show ((fun x => !x) ∘ fun x => !x : Bool → Bool) = id from funext Bool.not_not, List.map_id])
  exact ⟨c, hc, hcv, hcb, by rw [hd, hda]⟩

theorem not_involutive_spec_one_word :
    ∃ c, (fromBoolSlice [true, false, false]).not = some c ∧ c.Valid ∧
      c.bools = (fromBoolSlice [true, false, false]).bools.map (!·) ∧
      c.not = some (fromBoolSlice [true, false, false]) :=
  not_involutive_spec (fromBoolSlice_valid (by norm_num))

/-- `FromIterator<Option<bool>>`: a valid bitmap, a missing bit clear. -/
theorem fromOptions_spec (l : List (Option Bool)) (h32 : l.length < 2 ^ 32) :
    (fromOptions l).Valid ∧ (fromOptions l).bools = l.map fun b => b.getD false := by
  have hlen : (l.map fun b => b.getD false).length < 2 ^ 32 := by rwa [List.length_map]
  exact ⟨fromBoolSlice_valid hlen, bools_fromBoolSlice hlen⟩

theorem fromOptions_spec_three :
    (fromOptions [some true, none, some false]).Valid ∧
      (fromOptions [some true, none, some false]).bools =
        [some true, none, some false].map fun b => b.getD false :=
  fromOptions_spec [some true, none, some false] (by norm_num)

/-- Collecting the bits `iter` gives into a bitmap (`FromIterator<bool>`) gives the bitmap back. -/
theorem fromBoolSlice_iterList (ha : a.Valid) (h32 : a.numBits < 2 ^ 32) :
    fromBoolSlice a.iterList = a := by
  have hlen : a.bools.length < 2 ^ 32 := by rwa [length_bools]
  rw [iterList_eq_bools ha]
  exact Valid.ext (fromBoolSlice_valid hlen) ha (bools_fromBoolSlice hlen)

theorem fromBoolSlice_iterList_one_word :
    fromBoolSlice (fromBoolSlice [false, true, true]).iterList = fromBoolSlice [false, true, true] :=
  fromBoolSlice_iterList (fromBoolSlice_valid (by norm_num)) (by norm_num [fromBoolSlice])

end Bitmap

namespace BitmapBuilder

/-- Appending bits one at a time to a new builder and finishing it builds the bitmap that
`from_bool_slice` builds from them. -/
theorem foldlM_append_finish (capacity : ℕ) (l : List Bool) (h32 : l.length < 2 ^ 32) :
    (l.foldlM (fun (b : BitmapBuilder) bit => b.append bit) (withCapacity capacity)).map finish =
      some (Bitmap.fromBoolSlice l) := by
  obtain ⟨b, hfold, hbv, hbb⟩ := foldlM_append_spec l _ (withCapacity_valid capacity)
  rw [bools_withCapacity, List.nil_append] at hbb
  have hlen : b.len < 2 ^ 32 := by
    rw [← length_bools b, hbb]
    exact h32
  obtain ⟨hfv, hfb⟩ := finish_spec hbv hlen
  rw [hfold, Option.map_some,
    Bitmap.Valid.ext hfv (Bitmap.fromBoolSlice_valid h32) (by rw [hfb, hbb, Bitmap.bools_fromBoolSlice h32])]

theorem foldlM_append_finish_three :
    ([true, false, true].foldlM (fun (b : BitmapBuilder) bit => b.append bit)
      (withCapacity 8)).map finish =
      some (Bitmap.fromBoolSlice [true, false, true]) :=
  foldlM_append_finish 8 [true, false, true] (by norm_num)

end BitmapBuilder

end RisingWave.Common.Buffer

import Reckon.Proofs.Gives

/-!
# Rules for sums

Every rule builds a tree with the meaning of the sum that it is for.
-/

namespace Reckon.Simplify

open Reckon.Tree (number var unary binary)

variable {K : Type} [CommRing K] [Algebra ℚ K] {E : Expectation} {D : Tree → K → Prop}
  [KeepsSums E D]
  {p q r s t x : Tree} {a b c d u v w : K}

namespace Gives

theorem signedSum {e : Decimal} {z : ℚ} (he : e.toRat? = some z) (ht : D t u) :
    Gives E D (signedSum e t) (algebraMap ℚ K z + u) := by
  refine Ensures.bind (P := fun _ => True) (Ensures.ofExcept fun _ => trivial) fun atMost _ => ?_
  cases atMost with
  | true => exact (kept he).bind fun _ h => plus h ht
  | false => exact (negated he).bind fun _ h => (minus ht h).of_eq (by ring)

theorem sumWithNumber {e : Decimal} (ht : D t u) (he : D (number e) v) :
    Gives E D (sumWithNumber t e) (u + v) := by
  obtain ⟨z, hz, rfl⟩ := IsMeaning.number_iff.mp he
  unfold Simplify.sumWithNumber
  split
  · obtain ⟨_, w, hn, hx, rfl⟩ := IsMeaning.parts ht
    obtain ⟨z', hz', rfl⟩ := IsMeaning.number_iff.mp hn
    refine (ensures_number D (value?_sum hz hz')).bind fun _ hn => (signedSum hn hx).of_eq ?_
    rw [map_add]
    ring
  · obtain ⟨w, _, hx, hn, rfl⟩ := IsMeaning.parts ht
    obtain ⟨z', hz', rfl⟩ := IsMeaning.number_iff.mp hn
    refine (ensures_number D (value?_sum hz hz')).bind fun _ hn => (signedSum hn hx).of_eq ?_
    rw [map_add]
    ring
  · obtain ⟨_, w, hn, hx, rfl⟩ := IsMeaning.parts ht
    obtain ⟨z', hz', rfl⟩ := IsMeaning.number_iff.mp hn
    refine (rounded (value?_sum hz hz')).bind fun _ hn => (minus hn hx).of_eq ?_
    rw [map_add]
    ring
  · obtain ⟨w, _, hx, hn, rfl⟩ := IsMeaning.parts ht
    obtain ⟨z', hz', rfl⟩ := IsMeaning.number_iff.mp hn
    refine (ensures_number D (value?_difference hz hz')).bind fun _ hn => (signedSum hn hx).of_eq ?_
    rw [map_sub]
    ring
  · exact IsMeaning.plus ht (IsMeaning.number hz)

theorem sumWithVariable (ht : D t u) (hx : D x v) :
    Gives E D (sumWithVariable t x) (u + v) := by
  have hplain : D (binary .plus t x) (u + v) := IsMeaning.plus ht hx
  unfold Simplify.sumWithVariable
  split
  · obtain ⟨a, b, hp, hq, rfl⟩ := IsMeaning.parts ht
    split
    · rename_i h
      obtain rfl := IsMeaning.eq_of_same h hp hx
      exact (twice hx).bind fun _ h => (plus h hq).of_eq (by ring)
    split
    · rename_i h
      obtain rfl := IsMeaning.eq_of_same h hq hx
      exact (twice hx).bind fun _ h => (plus h hp).of_eq (by ring)
    · exact hplain
  · obtain ⟨a, b, hp, hq, rfl⟩ := IsMeaning.parts ht
    split
    · rename_i h
      obtain rfl := IsMeaning.eq_of_same h hp hx
      exact (twice hx).bind fun _ h => (minus h hq).of_eq (by ring)
    split
    · rename_i h
      obtain rfl := IsMeaning.eq_of_same h hq hx
      exact IsMeaning.of_eq hp (by ring)
    · exact hplain
  · obtain ⟨a, b, hc, hy, rfl⟩ := IsMeaning.parts ht
    split
    · rename_i h
      obtain rfl := IsMeaning.eq_of_same h hy hx
      exact (oneMore hc hx).of_eq (by ring)
    · exact hplain
  · obtain ⟨a, b, hy, hc, rfl⟩ := IsMeaning.parts ht
    split
    · rename_i h
      obtain rfl := IsMeaning.eq_of_same h hy hx
      exact (oneMore hc hx).of_eq (by ring)
    · exact hplain
  · exact hplain

theorem sumWithAtom (ht : D t u) (hx : D x v) :
    Gives E D (sumWithAtom t x) (u + v) := by
  unfold Simplify.sumWithAtom
  split
  · exact sumWithNumber ht hx
  · exact sumWithVariable ht hx

section
variable (hp : D p a) (hq : D q b) (hr : D r c) (hs : D s d)
include hp hq hr hs

theorem sumOfSums : Gives E D (sumOfSums p q r s) (a + b + (c + d)) := by
  unfold Simplify.sumOfSums
  split
  · rename_i h
    obtain rfl := IsMeaning.eq_of_same h hp hr
    exact (twice hp).bind fun _ h => (plus hq hs).bind fun _ h' => (plus h h').of_eq (by ring)
  split
  · rename_i h
    obtain rfl := IsMeaning.eq_of_same h hq hs
    exact (twice hq).bind fun _ h => (plus hp hr).bind fun _ h' => (plus h h').of_eq (by ring)
  split
  · rename_i h
    obtain rfl := IsMeaning.eq_of_same h hp hs
    exact (twice hp).bind fun _ h => (plus hq hr).bind fun _ h' => (plus h h').of_eq (by ring)
  split
  · rename_i h
    obtain rfl := IsMeaning.eq_of_same h hq hr
    exact (twice hq).bind fun _ h => (plus hp hs).bind fun _ h' => (plus h h').of_eq (by ring)
  · exact IsMeaning.plus (IsMeaning.plus hp hq) (IsMeaning.plus hr hs)

theorem sumWithDifference : Gives E D (sumWithDifference p q r s) (a + b + (c - d)) := by
  unfold Simplify.sumWithDifference
  split
  · rename_i h
    obtain rfl := IsMeaning.eq_of_same h hp hr
    exact (twice hp).bind fun _ h => (minus hq hs).bind fun _ h' => (plus h h').of_eq (by ring)
  split
  · rename_i h
    obtain rfl := IsMeaning.eq_of_same h hp hs
    exact (plus hq hr).of_eq (by ring)
  split
  · rename_i h
    obtain rfl := IsMeaning.eq_of_same h hq hr
    exact (twice hq).bind fun _ h => (minus hp hs).bind fun _ h' => (plus h h').of_eq (by ring)
  split
  · rename_i h
    obtain rfl := IsMeaning.eq_of_same h hq hs
    exact (plus hp hr).of_eq (by ring)
  · exact IsMeaning.plus (IsMeaning.plus hp hq) (IsMeaning.minus hr hs)

theorem sumOfDifferences : Gives E D (sumOfDifferences p q r s) (a - b + (c - d)) := by
  unfold Simplify.sumOfDifferences
  split
  · rename_i h
    obtain rfl := IsMeaning.eq_of_same h hp hr
    exact (twice hp).bind fun _ h => (plus hq hs).bind fun _ h' => (minus h h').of_eq (by ring)
  split
  · rename_i h
    obtain rfl := IsMeaning.eq_of_same h hp hs
    exact (minus hr hq).of_eq (by ring)
  split
  · rename_i h
    obtain rfl := IsMeaning.eq_of_same h hq hr
    exact (minus hp hs).of_eq (by ring)
  split
  · rename_i h
    obtain rfl := IsMeaning.eq_of_same h hq hs
    exact (plus hp hr).bind fun _ h => (twice hq).bind fun _ h' => (minus h h').of_eq (by ring)
  · exact IsMeaning.plus (IsMeaning.minus hp hq) (IsMeaning.minus hr hs)

end

theorem sumOfCompounds (hp : D p u) (hq : D q v) :
    Gives E D (sumOfCompounds p q) (u + v) := by
  have hplain : D (binary .plus p q) (u + v) := IsMeaning.plus hp hq
  unfold Simplify.sumOfCompounds
  split
  · obtain ⟨a, b, ha, hb, rfl⟩ := IsMeaning.parts hp
    obtain ⟨c, d, hc, hd, rfl⟩ := IsMeaning.parts hq
    exact sumOfSums ha hb hc hd
  · obtain ⟨a, b, ha, hb, rfl⟩ := IsMeaning.parts hp
    obtain ⟨c, d, hc, hd, rfl⟩ := IsMeaning.parts hq
    exact sumWithDifference ha hb hc hd
  · obtain ⟨c, d, hc, hd, rfl⟩ := IsMeaning.parts hp
    obtain ⟨a, b, ha, hb, rfl⟩ := IsMeaning.parts hq
    exact (sumWithDifference ha hb hc hd).of_eq (by ring)
  · obtain ⟨a, b, ha, hb, rfl⟩ := IsMeaning.parts hp
    obtain ⟨c, d, hc, hd, rfl⟩ := IsMeaning.parts hq
    exact sumOfDifferences ha hb hc hd
  · obtain ⟨a, b, ha, hb, rfl⟩ := IsMeaning.parts hp
    obtain ⟨c, d, hc, hd, rfl⟩ := IsMeaning.parts hq
    split
    · rename_i h
      obtain rfl := IsMeaning.eq_of_same h ha hd
      exact (oneMore hc ha).bind fun _ h => (plus hb h).of_eq (by ring)
    split
    · rename_i h
      obtain rfl := IsMeaning.eq_of_same h hb hd
      exact (oneMore hc hb).bind fun _ h => (plus ha h).of_eq (by ring)
    · exact hplain
  · obtain ⟨a, b, ha, hb, rfl⟩ := IsMeaning.parts hp
    obtain ⟨d, c, hd, hc, rfl⟩ := IsMeaning.parts hq
    split
    · rename_i h
      obtain rfl := IsMeaning.eq_of_same h ha hd
      exact (oneMore hc ha).bind fun _ h => (plus hb h).of_eq (by ring)
    split
    · rename_i h
      obtain rfl := IsMeaning.eq_of_same h hb hd
      exact (oneMore hc hb).bind fun _ h => (plus ha h).of_eq (by ring)
    · exact hplain
  · obtain ⟨a, b, ha, hb, rfl⟩ := IsMeaning.parts hp
    obtain ⟨c, d, hc, hd, rfl⟩ := IsMeaning.parts hq
    split
    · rename_i h
      obtain rfl := IsMeaning.eq_of_same h ha hd
      exact (oneMore hc ha).bind fun _ h => (minus h hb).of_eq (by ring)
    split
    · rename_i h
      obtain rfl := IsMeaning.eq_of_same h hb hd
      exact (oneLess hc hb).bind fun _ h => (plus h ha).of_eq (by ring)
    · exact hplain
  · obtain ⟨a, b, ha, hb, rfl⟩ := IsMeaning.parts hp
    obtain ⟨d, c, hd, hc, rfl⟩ := IsMeaning.parts hq
    split
    · rename_i h
      obtain rfl := IsMeaning.eq_of_same h ha hd
      exact (oneMore hc ha).bind fun _ h => (minus h hb).of_eq (by ring)
    split
    · rename_i h
      obtain rfl := IsMeaning.eq_of_same h hb hd
      exact (oneLess hc hb).bind fun _ h => (plus h ha).of_eq (by ring)
    · exact hplain
  · exact hplain

theorem sum (hp : D p u) (hq : D q v) : Gives E D (sum p q) (u + v) := by
  unfold Simplify.sum
  split
  · obtain ⟨x, hx, rfl⟩ := IsMeaning.number_iff.mp hp
    obtain ⟨y, hy, rfl⟩ := IsMeaning.number_iff.mp hq
    exact (rounded (value?_sum hx hy)).of_eq (map_add ..)
  split
  · rename_i h
    exact IsMeaning.of_eq hq (by rw [IsMeaning.eq_zero hp h, zero_add])
  split
  · rename_i h
    exact IsMeaning.of_eq hp (by rw [IsMeaning.eq_zero hq h, add_zero])
  split
  · rename_i h
    obtain rfl := IsMeaning.eq_of_same h hp hq
    exact (twice hp).of_eq (by ring)
  split
  · exact sumOfCompounds hp hq
  · exact sumWithAtom hp hq
  · exact (sumWithAtom hq hp).of_eq (by ring)
  · exact IsMeaning.plus hp hq

end Gives

end Reckon.Simplify

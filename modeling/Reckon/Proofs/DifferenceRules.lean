import Reckon.Proofs.Gives

/-!
# Rules for differences

Every rule builds a tree with the meaning of the difference that it is for.
-/

namespace Reckon.Simplify

open Reckon.Tree (number var unary binary)

variable {K : Type} [CommRing K] [Algebra ℚ K] {E : Expectation} {D : Tree → K → Prop}
  [KeepsSums E D]
  {p q r s t x : Tree} {a b c d u v w : K}

namespace Gives

theorem differenceWithNumber {e : Decimal} (ht : D t u) (he : D (number e) v) :
    Gives E D (differenceWithNumber t e) (u - v) := by
  obtain ⟨z, hz, rfl⟩ := IsMeaning.number_iff.mp he
  unfold Simplify.differenceWithNumber
  split
  · obtain ⟨_, w, hn, hx, rfl⟩ := IsMeaning.parts ht
    obtain ⟨z', hz', rfl⟩ := IsMeaning.number_iff.mp hn
    refine (rounded (value?_difference hz' hz)).bind fun _ hn => (plus hn hx).of_eq ?_
    rw [map_sub]
    ring
  · obtain ⟨w, _, hx, hn, rfl⟩ := IsMeaning.parts ht
    obtain ⟨z', hz', rfl⟩ := IsMeaning.number_iff.mp hn
    refine (rounded (value?_difference hz' hz)).bind fun _ hn => (plus hn hx).of_eq ?_
    rw [map_sub]
    ring
  · obtain ⟨_, w, hn, hx, rfl⟩ := IsMeaning.parts ht
    obtain ⟨z', hz', rfl⟩ := IsMeaning.number_iff.mp hn
    refine (rounded (value?_difference hz' hz)).bind fun _ hn => (minus hn hx).of_eq ?_
    rw [map_sub]
    ring
  · obtain ⟨w, _, hx, hn, rfl⟩ := IsMeaning.parts ht
    obtain ⟨z', hz', rfl⟩ := IsMeaning.number_iff.mp hn
    refine (rounded (value?_sum hz' hz)).bind fun _ hn => (minus hx hn).of_eq ?_
    rw [map_add]
    ring
  · exact IsMeaning.minus ht (IsMeaning.number hz)

theorem differenceWithVariable (ht : D t u) (hx : D x v) :
    Gives E D (differenceWithVariable t x) (u - v) := by
  have hplain : D (binary .minus t x) (u - v) := IsMeaning.minus ht hx
  unfold Simplify.differenceWithVariable
  split
  · obtain ⟨a, b, hp, hq, rfl⟩ := IsMeaning.parts ht
    split
    · rename_i h
      obtain rfl := IsMeaning.eq_of_same h hp hx
      exact IsMeaning.of_eq hq (by ring)
    split
    · rename_i h
      obtain rfl := IsMeaning.eq_of_same h hq hx
      exact IsMeaning.of_eq hp (by ring)
    · exact hplain
  · obtain ⟨a, b, hp, hq, rfl⟩ := IsMeaning.parts ht
    split
    · rename_i h
      obtain rfl := IsMeaning.eq_of_same h hp hx
      exact (opposite hq).of_eq (by ring)
    split
    · rename_i h
      obtain rfl := IsMeaning.eq_of_same h hq hx
      exact (twice hx).bind fun _ h => (minus hp h).of_eq (by ring)
    · exact hplain
  · obtain ⟨a, b, hc, hy, rfl⟩ := IsMeaning.parts ht
    split
    · rename_i h
      obtain rfl := IsMeaning.eq_of_same h hy hx
      exact (oneLess hc hx).of_eq (by ring)
    · exact hplain
  · obtain ⟨a, b, hy, hc, rfl⟩ := IsMeaning.parts ht
    split
    · rename_i h
      obtain rfl := IsMeaning.eq_of_same h hy hx
      exact (oneLess hc hx).of_eq (by ring)
    · exact hplain
  · exact hplain

theorem differenceWithAtom (ht : D t u) (hx : D x v) :
    Gives E D (differenceWithAtom t x) (u - v) := by
  unfold Simplify.differenceWithAtom
  split
  · exact differenceWithNumber ht hx
  · exact differenceWithVariable ht hx

theorem differenceFromNumber {e : Decimal} (he : D (number e) u) (ht : D t v) :
    Gives E D (differenceFromNumber e t) (u - v) := by
  obtain ⟨z, hz, rfl⟩ := IsMeaning.number_iff.mp he
  unfold Simplify.differenceFromNumber
  split
  · obtain ⟨_, w, hn, hx, rfl⟩ := IsMeaning.parts ht
    obtain ⟨z', hz', rfl⟩ := IsMeaning.number_iff.mp hn
    refine (rounded (value?_difference hz hz')).bind fun _ hn => (minus hn hx).of_eq ?_
    rw [map_sub]
    ring
  · obtain ⟨w, _, hx, hn, rfl⟩ := IsMeaning.parts ht
    obtain ⟨z', hz', rfl⟩ := IsMeaning.number_iff.mp hn
    refine (rounded (value?_difference hz hz')).bind fun _ hn => (minus hn hx).of_eq ?_
    rw [map_sub]
    ring
  · obtain ⟨_, w, hn, hx, rfl⟩ := IsMeaning.parts ht
    obtain ⟨z', hz', rfl⟩ := IsMeaning.number_iff.mp hn
    refine (rounded (value?_difference hz hz')).bind fun _ hn => (plus hn hx).of_eq ?_
    rw [map_sub]
    ring
  · obtain ⟨w, _, hx, hn, rfl⟩ := IsMeaning.parts ht
    obtain ⟨z', hz', rfl⟩ := IsMeaning.number_iff.mp hn
    refine (rounded (value?_sum hz hz')).bind fun _ hn => (minus hn hx).of_eq ?_
    rw [map_add]
    ring
  · exact IsMeaning.minus (IsMeaning.number hz) ht

theorem differenceFromVariable (hx : D x u) (ht : D t v) :
    Gives E D (differenceFromVariable x t) (u - v) := by
  have hplain : D (binary .minus x t) (u - v) := IsMeaning.minus hx ht
  unfold Simplify.differenceFromVariable
  split
  · obtain ⟨a, b, hp, hq, rfl⟩ := IsMeaning.parts ht
    split
    · rename_i h
      obtain rfl := IsMeaning.eq_of_same h hp hx
      exact (opposite hq).of_eq (by ring)
    split
    · rename_i h
      obtain rfl := IsMeaning.eq_of_same h hq hx
      exact (opposite hp).of_eq (by ring)
    · exact hplain
  · obtain ⟨a, b, hp, hq, rfl⟩ := IsMeaning.parts ht
    split
    · rename_i h
      obtain rfl := IsMeaning.eq_of_same h hp hx
      exact IsMeaning.of_eq hq (by ring)
    split
    · rename_i h
      obtain rfl := IsMeaning.eq_of_same h hq hx
      exact (twice hx).bind fun _ h => (minus h hp).of_eq (by ring)
    · exact hplain
  · obtain ⟨a, b, hc, hy, rfl⟩ := IsMeaning.parts ht
    split
    · rename_i h
      obtain rfl := IsMeaning.eq_of_same h hy hx
      exact (oneMinus hc hx).of_eq (by ring)
    · exact hplain
  · obtain ⟨a, b, hy, hc, rfl⟩ := IsMeaning.parts ht
    split
    · rename_i h
      obtain rfl := IsMeaning.eq_of_same h hy hx
      exact (oneMinus hc hx).of_eq (by ring)
    · exact hplain
  · exact hplain

theorem differenceFromAtom (hx : D x u) (ht : D t v) :
    Gives E D (differenceFromAtom x t) (u - v) := by
  unfold Simplify.differenceFromAtom
  split
  · exact differenceFromNumber hx ht
  · exact differenceFromVariable hx ht

section
variable (hp : D p a) (hq : D q b) (hr : D r c) (hs : D s d)
include hp hq hr hs

theorem differenceOfSums : Gives E D (differenceOfSums p q r s) (a + b - (c + d)) := by
  unfold Simplify.differenceOfSums
  split
  · rename_i h
    obtain rfl := IsMeaning.eq_of_same h hp hr
    exact (minus hq hs).of_eq (by ring)
  split
  · rename_i h
    obtain rfl := IsMeaning.eq_of_same h hp hs
    exact (minus hq hr).of_eq (by ring)
  split
  · rename_i h
    obtain rfl := IsMeaning.eq_of_same h hq hr
    exact (minus hp hs).of_eq (by ring)
  split
  · rename_i h
    obtain rfl := IsMeaning.eq_of_same h hq hs
    exact (minus hp hr).of_eq (by ring)
  · exact IsMeaning.minus (IsMeaning.plus hp hq) (IsMeaning.plus hr hs)

theorem sumMinusDifference : Gives E D (sumMinusDifference p q r s) (a + b - (c - d)) := by
  unfold Simplify.sumMinusDifference
  split
  · rename_i h
    obtain rfl := IsMeaning.eq_of_same h hp hr
    exact (plus hq hs).of_eq (by ring)
  split
  · rename_i h
    obtain rfl := IsMeaning.eq_of_same h hp hs
    exact (twice hp).bind fun _ h => (minus hq hr).bind fun _ h' => (plus h h').of_eq (by ring)
  split
  · rename_i h
    obtain rfl := IsMeaning.eq_of_same h hq hr
    exact (plus hp hs).of_eq (by ring)
  split
  · rename_i h
    obtain rfl := IsMeaning.eq_of_same h hq hs
    exact (twice hq).bind fun _ h => (minus hp hr).bind fun _ h' => (plus h h').of_eq (by ring)
  · exact IsMeaning.minus (IsMeaning.plus hp hq) (IsMeaning.minus hr hs)

theorem differenceMinusSum : Gives E D (differenceMinusSum p q r s) (a - b - (c + d)) := by
  unfold Simplify.differenceMinusSum
  split
  · rename_i h
    obtain rfl := IsMeaning.eq_of_same h hp hr
    exact (opposite hq).bind fun _ h => (minus h hs).of_eq (by ring)
  split
  · rename_i h
    obtain rfl := IsMeaning.eq_of_same h hp hs
    exact (opposite hq).bind fun _ h => (minus h hr).of_eq (by ring)
  split
  · rename_i h
    obtain rfl := IsMeaning.eq_of_same h hq hr
    exact (minus hp hs).bind fun _ h => (twice hq).bind fun _ h' => (minus h h').of_eq (by ring)
  split
  · rename_i h
    obtain rfl := IsMeaning.eq_of_same h hq hs
    exact (minus hp hr).bind fun _ h => (twice hq).bind fun _ h' => (minus h h').of_eq (by ring)
  · exact IsMeaning.minus (IsMeaning.minus hp hq) (IsMeaning.plus hr hs)

theorem differenceOfDifferences :
    Gives E D (differenceOfDifferences p q r s) (a - b - (c - d)) := by
  unfold Simplify.differenceOfDifferences
  split
  · rename_i h
    obtain rfl := IsMeaning.eq_of_same h hp hr
    exact (minus hs hq).of_eq (by ring)
  split
  · rename_i h
    obtain rfl := IsMeaning.eq_of_same h hp hs
    exact (twice hp).bind fun _ h => (plus hq hr).bind fun _ h' => (minus h h').of_eq (by ring)
  split
  · rename_i h
    obtain rfl := IsMeaning.eq_of_same h hq hr
    exact (plus hp hs).bind fun _ h => (twice hq).bind fun _ h' => (minus h h').of_eq (by ring)
  split
  · rename_i h
    obtain rfl := IsMeaning.eq_of_same h hq hs
    exact (minus hp hr).of_eq (by ring)
  · exact IsMeaning.minus (IsMeaning.minus hp hq) (IsMeaning.minus hr hs)

end

theorem differenceOfCompounds (hp : D p u) (hq : D q v) :
    Gives E D (differenceOfCompounds p q) (u - v) := by
  have hplain : D (binary .minus p q) (u - v) := IsMeaning.minus hp hq
  unfold Simplify.differenceOfCompounds
  split
  · obtain ⟨a, b, ha, hb, rfl⟩ := IsMeaning.parts hp
    obtain ⟨c, d, hc, hd, rfl⟩ := IsMeaning.parts hq
    exact differenceOfSums ha hb hc hd
  · obtain ⟨a, b, ha, hb, rfl⟩ := IsMeaning.parts hp
    obtain ⟨c, d, hc, hd, rfl⟩ := IsMeaning.parts hq
    exact sumMinusDifference ha hb hc hd
  · obtain ⟨a, b, ha, hb, rfl⟩ := IsMeaning.parts hp
    obtain ⟨c, d, hc, hd, rfl⟩ := IsMeaning.parts hq
    exact differenceMinusSum ha hb hc hd
  · obtain ⟨a, b, ha, hb, rfl⟩ := IsMeaning.parts hp
    obtain ⟨c, d, hc, hd, rfl⟩ := IsMeaning.parts hq
    exact differenceOfDifferences ha hb hc hd
  · obtain ⟨a, b, ha, hb, rfl⟩ := IsMeaning.parts hp
    obtain ⟨c, d, hc, hd, rfl⟩ := IsMeaning.parts hq
    split
    · rename_i h
      obtain rfl := IsMeaning.eq_of_same h ha hd
      exact (oneMinus hc ha).bind fun _ h => (plus h hb).of_eq (by ring)
    split
    · rename_i h
      obtain rfl := IsMeaning.eq_of_same h hb hd
      exact (oneMinus hc hb).bind fun _ h => (plus h ha).of_eq (by ring)
    · exact hplain
  · obtain ⟨a, b, ha, hb, rfl⟩ := IsMeaning.parts hp
    obtain ⟨d, c, hd, hc, rfl⟩ := IsMeaning.parts hq
    split
    · rename_i h
      obtain rfl := IsMeaning.eq_of_same h ha hd
      exact (oneMinus hc ha).bind fun _ h => (plus h hb).of_eq (by ring)
    split
    · rename_i h
      obtain rfl := IsMeaning.eq_of_same h hb hd
      exact (oneMinus hc hb).bind fun _ h => (plus h ha).of_eq (by ring)
    · exact hplain
  · obtain ⟨a, b, ha, hb, rfl⟩ := IsMeaning.parts hp
    obtain ⟨c, d, hc, hd, rfl⟩ := IsMeaning.parts hq
    split
    · rename_i h
      obtain rfl := IsMeaning.eq_of_same h ha hd
      exact (oneMinus hc ha).bind fun _ h => (minus h hb).of_eq (by ring)
    split
    · rename_i h
      obtain rfl := IsMeaning.eq_of_same h hb hd
      exact (minusOneMinus hc hb).bind fun _ h => (plus h ha).of_eq (by ring)
    · exact hplain
  · obtain ⟨a, b, ha, hb, rfl⟩ := IsMeaning.parts hp
    obtain ⟨d, c, hd, hc, rfl⟩ := IsMeaning.parts hq
    split
    · rename_i h
      obtain rfl := IsMeaning.eq_of_same h ha hd
      exact (oneMinus hc ha).bind fun _ h => (minus h hb).of_eq (by ring)
    split
    · rename_i h
      obtain rfl := IsMeaning.eq_of_same h hb hd
      exact (minusOneMinus hc hb).bind fun _ h => (plus h ha).of_eq (by ring)
    · exact hplain
  · exact hplain

theorem difference (hp : D p u) (hq : D q v) :
    Gives E D (difference p q) (u - v) := by
  unfold Simplify.difference
  split
  · obtain ⟨x, hx, rfl⟩ := IsMeaning.number_iff.mp hp
    obtain ⟨y, hy, rfl⟩ := IsMeaning.number_iff.mp hq
    exact (rounded (value?_difference hx hy)).of_eq (map_sub ..)
  split
  · rename_i h
    exact (opposite hq).of_eq (by rw [IsMeaning.eq_zero hp h, zero_sub])
  split
  · rename_i h
    exact IsMeaning.of_eq hp (by rw [IsMeaning.eq_zero hq h, sub_zero])
  split
  · rename_i h
    obtain rfl := IsMeaning.eq_of_same h hp hq
    exact IsMeaning.of_eq (IsMeaning.zero (D := D)) (by ring)
  split
  · exact differenceOfCompounds hp hq
  · exact differenceWithAtom hp hq
  · exact differenceFromAtom hp hq
  · exact IsMeaning.minus hp hq

end Gives

end Reckon.Simplify

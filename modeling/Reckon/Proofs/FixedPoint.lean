import Reckon.Proofs.Display
import Reckon.Proofs.ExactArithmetic
import Reckon.Proofs.FiniteNumbers
import Reckon.Proofs.NormalRules
import Reckon.Simplify.Pass

/-!
# One pass is enough

A pass over a tree of finite numbers builds a normal tree (`Builds.passLevels`), and a pass over
a normal tree builds that tree again unless it is nested too deeply (`follow_passLevels`). So the
tree that the first pass yields is the simplified tree (`Tree.simplify_fixed`).
-/

namespace Reckon

namespace Decimal
variable {a : Decimal}

theorem compareMagnitude_self (n : Nat) (e : Int) : compareMagnitude n e n e = .eq := by
  unfold compareMagnitude
  split
  · rfl
  · simp

theorem same_self (ha : a.isFinite = true) : a.same a = true := by
  cases a with
  | infinite | nan => cases ha
  | finite m n e =>
    rw [same, compare?]
    split
    · rfl
    split
    · rw [compareMagnitude_self]
      rfl
    · rw [compareMagnitude_self]
      rfl

end Decimal

namespace Tree

theorem same_self {t : Tree} (ht : t.hasFiniteNumbers = true) : t.same t = true := by
  induction t with
  | number a => exact Decimal.same_self ht
  | var x => exact decide_eq_true rfl
  | unary op a ih =>
    rw [same, ih ht]
    simp
  | binary op a b iha ihb =>
    obtain ⟨ha, hb⟩ := Bool.and_eq_true_iff.mp ht
    rw [same, iha ha, ihb hb]
    simp

theorem IsNormal.hasFiniteNumbers {t : Tree} (ht : t.IsNormal) : t.hasFiniteNumbers = true := by
  induction t with
  | number a => exact ht
  | var x => rfl
  | unary op a ih => exact ih ht.1
  | binary op a b iha ihb => exact Bool.and_eq_true_iff.mpr ⟨iha ht.1, ihb ht.2.1⟩

end Tree

namespace Simplify

open Reckon.Tree (number var unary binary)

/-! ### Working answers -/

theorem isFinite_of_result {P : Tree → Prop} [IsInherited P] {c : Computation} {a : Decimal}
    (h : c.result = .ok a) (hc : c.Has P) : a.isFinite = true := by
  have hfinite {x : Decimal} : P (number x) → x.isFinite = true := IsInherited.number_iff.mp
  cases c with
  | sum x y => exact Decimal.yieldsFinite_add (hfinite hc.1) (hfinite hc.2) a h
  | difference x y => exact Decimal.yieldsFinite_sub (hfinite hc.1) (hfinite hc.2) a h
  | product x y => exact Decimal.yieldsFinite_mul (hfinite hc.1) (hfinite hc.2) a h
  | opposite x => exact Decimal.yieldsFinite_minus (hfinite hc) a h
  | kept x => exact Decimal.yieldsFinite_plus (hfinite hc) a h

theorem fulfills_working (P : Tree → Prop) [IsInherited P] :
    Arithmetic.working.Fulfills (Tidy P) where
  number _ _ h hc := IsInherited.number_iff.mpr (isFinite_of_result (mapError_eq_ok_iff.mp h) hc)
  integer _ _ h := ⟨h, fun a ha =>
    IsInherited.number_iff.mpr (Decimal.isFinite_of_isIntegral (isIntegral_of_integer h a ha))⟩
  rule op _ _ := .forall_intro fun ha => .forall_intro fun hb => Builds.rule op ha hb

theorem Builds.run {P : Tree → Prop} [IsInherited P] {p : Plan Tree} (h : Builds P p) {s : Tree}
    (hs : p.run .working = .ok s) : P s :=
  (fulfills_working P).run h hs

/-! ### The first pass -/

theorem Builds.foldChain {below : Tree → Plan Tree}
    (h : ∀ t, t.hasFiniteNumbers = true → Builds Tree.IsNormal (below t)) {t : Tree}
    (ht : t.hasFiniteNumbers = true) : Builds Tree.IsNormal (t.foldChain below Plan.combine) := by
  induction t with
  | number | var | unary => exact h _ ht
  | binary op a b iha ihb =>
    obtain ⟨ha, hb⟩ := Bool.and_eq_true_iff.mp ht
    rw [Tree.foldChain_binary]
    exact (iha ha).bind fun a' ha' => (h b hb).bind fun b' => combine ha'

theorem Builds.passLevels (levels : Nat) {t : Tree} (ht : t.hasFiniteNumbers = true) :
    Builds Tree.IsNormal (passLevels levels t) := by
  induction levels generalizing t with
  | zero => trivial
  | succ levels ih =>
    cases t with
    | number a => exact ht
    | var x => trivial
    | unary op a => exact (ih (t := a) ht).bind fun _ => unaryRule op
    | binary op a b => exact foldChain (fun _ => ih) ht

/-! ### The second pass -/

variable {s t : Tree}

/-- The plan builds `s`, unless it finds a tree that is nested too deeply. -/
def Rebuilds (p : Plan Tree) (s : Tree) : Prop :=
  p.run .working = .ok s ∨ p.run .working = .error .tooDeep

theorem Rebuilds.bind {p : Plan Tree} {f : Tree → Plan Tree} (hp : Rebuilds p t)
    (hf : Rebuilds (f t) s) : Rebuilds (p >>= f) s := by
  unfold Rebuilds at hf ⊢
  rw [Plan.run, Plan.bind_eq, Plan.follow_bind]
  rcases hp with hp | hp
  · rw [Plan.run] at hp
    rw [hp]
    exact hf
  · rw [Plan.run] at hp
    rw [hp]
    exact .inr rfl

theorem combineBy_of_rests {op : Binary} {a b : Tree} (h : Rests op a b) :
    combineBy .working op a b = .ok (binary op a b) := by
  have hpos : 0 < ruleBound a b := by
    unfold ruleBound
    positivity
  obtain ⟨k, hk⟩ := Nat.exists_eq_add_one.mpr hpos
  rw [combineBy, hk]
  exact h _

theorem Rebuilds.combine {op : Binary} {a b : Tree} (h : Rests op a b) :
    Rebuilds (Plan.combine op a b) (binary op a b) := by
  left
  rw [Plan.run, Plan.combine, Plan.follow, Arithmetic.answer, combineBy_of_rests h]
  rfl

theorem Rebuilds.foldChain {below : Tree → Plan Tree}
    (h : ∀ s, s.IsNormal → Rebuilds (below s) s) (hs : s.IsNormal) :
    Rebuilds (s.foldChain below Plan.combine) s := by
  induction s with
  | number | var | unary => exact h _ hs
  | binary op a b iha ihb =>
    rw [Tree.foldChain_binary]
    exact (iha hs.1).bind ((h b hs.2.1).bind (combine hs.2.2))

theorem Rebuilds.passLevels (levels : Nat) (hs : s.IsNormal) :
    Rebuilds (passLevels levels s) s := by
  induction levels generalizing s with
  | zero => exact .inr rfl
  | succ levels ih =>
    cases s with
    | number | var => exact .inl rfl
    | unary op a => exact (ih hs.1).bind (.inl (hs.2 _))
    | binary op a b => exact foldChain (fun _ => ih) hs

theorem simplify_of_isNormal (hs : s.IsNormal) :
    s.simplify = .ok s ∨ s.simplify = .error .tooDeep :=
  Rebuilds.passLevels (maxDepth + 1) hs

/-! ### The number of passes -/

theorem run_settleFrom (done left : Nat) (h : t.simplify = .ok s) :
    (settleFrom done (left + 1) t).run .working =
      if s.same t then .ok ⟨s, some (done + 1)⟩
      else (settleFrom (done + 1) left s).run .working := by
  rw [Tree.simplify, Plan.run] at h
  rw [settleFrom, Plan.bind_eq, Plan.run, Plan.follow_bind, h]
  change Plan.follow _ _ = _
  split
  · rfl
  · rfl

theorem simplify_of_settle {r : Settled} (h : settle t = .ok r) : ∃ s, t.simplify = .ok s := by
  rw [settle, settled, maxPasses, settleFrom, Plan.bind_eq, Plan.run, Plan.follow_bind] at h
  obtain ⟨s, hs, -⟩ := bind_eq_ok_iff.mp h
  exact ⟨s, hs⟩

/-- The first pass or the second is the last one, unless the second finds the tree too deep. -/
theorem settle_of_isNormal (h : t.simplify = .ok s) (hs : s.IsNormal) :
    settle t = .ok ⟨s, some 1⟩ ∨ settle t = .ok ⟨s, some 2⟩ ∨
      s.simplify = .error .tooDeep ∧ settle t = .error .tooDeep := by
  rw [settle, settled, maxPasses, run_settleFrom 0 _ h]
  split
  · exact .inl rfl
  rcases simplify_of_isNormal hs with hagain | hdeep
  · rw [run_settleFrom 1 _ hagain, if_pos (Tree.same_self hs.hasFiniteNumbers)]
    exact .inr (.inl rfl)
  · refine .inr (.inr ⟨hdeep, ?_⟩)
    rw [Tree.simplify, Plan.run] at hdeep
    rw [settleFrom, Plan.bind_eq, Plan.run, Plan.follow_bind, hdeep]
    rfl

end Simplify

namespace Tree
variable {t s : Tree}

theorem simplifyFully_of_isNormal (h : t.simplify = .ok s) (hs : s.IsNormal)
    (hagain : s.simplify = .ok s) : t.simplifyFully = .ok s := by
  rw [simplifyFully]
  rcases Simplify.settle_of_isNormal h hs with h | h | ⟨hdeep, -⟩
  · rw [h]
    rfl
  · rw [h]
    rfl
  · rw [hagain] at hdeep
    cases hdeep

/-- Whatever one pass over a tree of finite numbers builds, a second pass either leaves as it is or
cannot walk through, because it is nested too deeply. The passes end with the first one or the
second, and their tree is the one that the first built. -/
theorem simplify_fixed (ht : t.hasFiniteNumbers = true) :
    (∀ s, t.simplify = .ok s → s.simplify = .error .tooDeep ∨
      s.simplify = .ok s ∧ t.simplifyFully = .ok s ∧ s.simplifyFully = .ok s) ∧
    ∀ r, Simplify.settle t = .ok r →
      t.simplify = .ok r.tree ∧ (r.passes = some 1 ∨ r.passes = some 2) := by
  have hnormal : ∀ s, t.simplify = .ok s → s.IsNormal := fun s hs =>
    (Simplify.Builds.passLevels (maxDepth + 1) ht).run hs
  refine ⟨fun s hs => ?_, fun r hr => ?_⟩
  · rcases Simplify.simplify_of_isNormal (hnormal s hs) with hagain | hdeep
    · exact .inr ⟨hagain, simplifyFully_of_isNormal hs (hnormal s hs) hagain,
        simplifyFully_of_isNormal hagain (hnormal s hs) hagain⟩
    · exact .inl hdeep
  · obtain ⟨s, hs⟩ := Simplify.simplify_of_settle hr
    rcases Simplify.settle_of_isNormal hs (hnormal s hs) with h | h | ⟨-, h⟩
    · obtain rfl := Except.ok.inj (h.symm.trans hr)
      exact ⟨hs, .inl rfl⟩
    · obtain rfl := Except.ok.inj (h.symm.trans hr)
      exact ⟨hs, .inr rfl⟩
    · rw [h] at hr
      cases hr

/-- The tree `sin (acos x)` becomes `sqrt (1 - x ^ 2)`. -/
theorem simplify_fixed_sin :
    (unary .sin (unary .acos (var "x"))).hasFiniteNumbers = true ∧
      (unary .sin (unary .acos (var "x"))).simplifyFully =
        .ok (unary .sqrt (binary .minus one (binary .power (var "x") two))) := by
  refine ⟨rfl, ?_⟩
  rcases (simplify_fixed (t := unary .sin (unary .acos (var "x"))) rfl).1 _ rfl with h | h
  · cases h
  · exact h.2.1

end Tree

end Reckon

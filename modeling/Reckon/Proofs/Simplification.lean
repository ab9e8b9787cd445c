import Reckon.Proofs.DifferenceRules
import Reckon.Proofs.RationalAnswers
import Reckon.Proofs.SumRules
import Reckon.Simplify.Pass

/-!
# What simplifying keeps

A run of the rules without rounding keeps every meaning that a tree has: of one rule by the lemmas
about the rules, of a pass by induction on the levels, of all passes by induction on their number
(`ensures_settled`).
-/

namespace Reckon

namespace Simplify

open Reckon.Tree (number var unary binary)

variable {K : Type} [CommRing K] [Algebra ℚ K] {ρ : String → Option K}
  {op : Binary} {a b t : Tree} {v : K}

/-! ### Rules -/

theorem Gives.rule (h : Means ρ (binary op a b) v) :
    Gives (Expected ρ) (Means ρ) (rule op a b) v := by
  cases op with
  | plus =>
    obtain ⟨_, _, ha, hb, rfl⟩ := h
    exact sum ha hb
  | minus =>
    obtain ⟨_, _, ha, hb, rfl⟩ := h
    exact difference ha hb
  | times =>
    obtain ⟨_, _, ha, hb, rfl⟩ := h
    exact product ha hb
  | div => exact quotient h
  | power => exact power h
  | _ => exact h.elim

theorem ensures_rule (op : Binary) (a b : Tree) :
    Ensures (Expected ρ) (rule op a b) (Replaces ρ op a b) := by
  have hmeans : Ensures (Expected ρ) (rule op a b) fun s =>
      ∀ v, Means ρ (binary op a b) v → Means ρ s v :=
    .forall_intro fun v => .forall_intro fun h => Gives.rule h
  exact (hmeans.and (ensures_shape (Means ρ) op a b)).mono fun s h => ⟨h.1, h.2.1, h.2.2⟩

/-! ### Runs -/

/-- Numbers that are not rounded are the ones that plans count on. -/
theorem fulfills_exact : Arithmetic.exact.Fulfills (Expected ρ) where
  number _ _ h := (exact_number h).2
  integer _ _ h := (exact_integer h).2
  rule := ensures_rule

/-- A run without rounding keeps the promise of its plan. -/
theorem Ensures.run {α : Type} {p : Plan α} {P : α → Prop} (h : Ensures (Expected ρ) p P) {a : α}
    (ha : p.run .exact = .ok a) : P a :=
  fulfills_exact.run h ha

/-! ### Passes -/

variable (ρ) in
/-- The tree `s` means what `t` means, and is `t` if that is a number. -/
structure Keeps (t s : Tree) : Prop where
  means : ∀ v : K, Means ρ t v → Means ρ s v
  number : ∀ n, t = .number n → s = t

theorem Keeps.refl (t : Tree) : Keeps ρ t t :=
  ⟨fun _ h => h, fun _ _ => rfl⟩

theorem Keeps.of_replaces {a' b' s : Tree} (ha : Keeps ρ a a') (hb : Keeps ρ b b')
    (h : Replaces ρ op a' b' s) : Keeps ρ (binary op a b) s := by
  refine ⟨fun v hv => h.means v (hv.congr ha.means hb.means ?_), fun n hn => by cases hn⟩
  rintro n rfl
  exact ⟨n, hb.number n rfl, rfl⟩

theorem ensures_foldChain {below : Tree → Plan Tree}
    (h : ∀ t, Ensures (Expected ρ) (below t) (Keeps ρ t)) (t : Tree) :
    Ensures (Expected ρ) (t.foldChain below Plan.combine) (Keeps ρ t) := by
  induction t with
  | number | var | unary => exact h _
  | binary op a b iha ihb =>
    rw [Tree.foldChain_binary]
    exact iha.bind fun a' ha => (h b).bind fun b' hb s hs => .of_replaces ha hb hs

theorem ensures_passLevels (levels : Nat) (t : Tree) :
    Ensures (Expected ρ) (passLevels levels t) (Keeps ρ t) := by
  induction levels generalizing t with
  | zero => trivial
  | succ levels ih =>
    cases t with
    | number n => exact Keeps.refl _
    | var x => exact Keeps.refl _
    | unary op a =>
      -- a function has no meaning that could be lost
      exact (ih a).bind fun s _ => .of_forall fun s' => ⟨fun v h => h.elim, fun n h => by cases h⟩
    | binary op a b => exact ensures_foldChain ih _

theorem ensures_settleFrom (done left : Nat) (t : Tree) :
    Ensures (Expected ρ) (settleFrom done left t) fun s =>
      ∀ v : K, Means ρ t v → Means ρ s.tree v := by
  induction left generalizing done t with
  | zero => exact fun v h => h
  | succ left ih =>
    refine (ensures_passLevels (maxDepth + 1) t).bind fun s hs => ?_
    split
    · exact hs.means
    · exact (ih (done + 1) s).mono fun s' h v hv => h v (hs.means v hv)

theorem ensures_settled (t : Tree) :
    Ensures (Expected ρ) (settled t) fun s => ∀ v : K, Means ρ t v → Means ρ s.tree v :=
  ensures_settleFrom 0 maxPasses t

end Simplify

/-! ### The value of a simplified tree -/

namespace Tree
variable {t s : Tree}

theorem settled_of_simplifyFully (h : t.simplifyFully = .ok s) :
    ∃ r, Simplify.settle t = .ok r ∧ r.tree = s := by
  obtain ⟨r, hr, hs⟩ := bind_eq_ok_iff.mp h
  cases hs
  exact ⟨r, hr, rfl⟩

/-- If no number is rounded, the simplified tree has every value that the tree has. -/
theorem exact_simplifyFully (ht : t.isRational = true) (hs : t.simplifyFully = .ok s)
    (hexact : (Simplify.settled t).IsExact) (ρ : String → ℚ) (v : ℚ)
    (hv : t.exact .integral ρ = some v) : s.exact .integral ρ = some v := by
  obtain ⟨r, hr, rfl⟩ := settled_of_simplifyFully hs
  have hmeans : Means (fun x => some (ρ x)) r.tree v :=
    (Simplify.ensures_settled t).run (hexact.run_eq hr) v (means_of_exact ht hv)
  exact exact_of_means hmeans

/-- The sum `(x + x) - 2 * 3` becomes `2 * x - 6`. -/
theorem exact_simplifyFully_sum :
    (binary .minus (binary .times two (var "x")) (number (.ofNat 6))).exact .integral (fun _ => 5) =
      some 4 :=
  exact_simplifyFully
    (t := binary .minus (binary .plus (var "x") (var "x"))
      (binary .times two (number (.ofNat 3))))
    (by decide) (by rfl) (by decide +kernel) _ 4 (by decide +kernel)

end Tree

end Reckon

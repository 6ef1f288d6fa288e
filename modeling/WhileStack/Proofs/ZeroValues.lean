import WhileStack.Proofs.Evaluation.Run
import WhileStack.Proofs.Simulation.Zero

/-! Types resolve alike for evaluation and for compiled code. Where a type has the layout of a value, following its name
comes to a type of that kind and layout, and both sides start a parameter with the same value. -/
namespace WhileStack
open Source (Ty Aliases)

namespace Eval

mutual

/-- The recursion that makes a zero value, without a bound: a type is followed to the one that stands behind it, and a
record is made of the zero values of its fields. -/
inductive Zeroes (aliases : Aliases) : Heap → Ty → Except ZeroError (Value × Heap) → Prop
  | unresolved {h t e} (hu : aliases.underlying t = .error e) : Zeroes aliases h t (.error (.badAlias e))
  | resolved {h t u r} (hu : aliases.underlying t = .ok u) (hz : ZeroesPlain aliases h u r) : Zeroes aliases h t r

inductive ZeroesPlain (aliases : Aliases) : Heap → Ty → Except ZeroError (Value × Heap) → Prop
  | void {h} : ZeroesPlain aliases h .void (.error (.noZero .void))
  | int {h} : ZeroesPlain aliases h .int (.ok (.int 0, h))
  | bool {h} : ZeroesPlain aliases h .bool (.ok (.bool false, h))
  | string {h} : ZeroesPlain aliases h .string (.ok (.string "", h))
  | list {h t} : ZeroesPlain aliases h (.list t) (.ok (h.alloc (.list [])))
  | record {h fs r} (hs : ZeroesFields aliases h fs r) :
    ZeroesPlain aliases h (.record fs) (r.map fun p => p.2.alloc (.record p.1))

inductive ZeroesFields (aliases : Aliases) :
    Heap → List (String × Ty) → Except ZeroError (List (String × Value) × Heap) → Prop
  | nil {h} : ZeroesFields aliases h [] (.ok ([], h))
  | stop {h n t fs e} (hz : Zeroes aliases h t (.error e)) : ZeroesFields aliases h ((n, t) :: fs) (.error e)
  | cons {h n t fs v h' r} (hz : Zeroes aliases h t (.ok (v, h'))) (hs : ZeroesFields aliases h' fs r) :
    ZeroesFields aliases h ((n, t) :: fs) (r.map fun p => ((n, v) :: p.1, p.2))

end

section
variable {aliases : Aliases}

mutual

private theorem Zeroes.unique : ∀ {h t r r'}, Zeroes aliases h t r → Zeroes aliases h t r' → r = r'
  | _, _, _, _, .unresolved hu, .unresolved hu' => by
    cases hu.symm.trans hu'
    rfl
  | _, _, _, _, .unresolved hu, .resolved hu' _ => nomatch hu.symm.trans hu'
  | _, _, _, _, .resolved hu _, .unresolved hu' => nomatch hu.symm.trans hu'
  | _, _, _, _, .resolved hu hz, .resolved hu' hz' => by
    cases hu.symm.trans hu'
    exact hz.unique hz'

private theorem ZeroesPlain.unique : ∀ {h t r r'}, ZeroesPlain aliases h t r → ZeroesPlain aliases h t r' → r = r'
  | _, _, _, _, .void, .void | _, _, _, _, .int, .int | _, _, _, _, .bool, .bool | _, _, _, _, .string, .string
  | _, _, _, _, .list, .list => rfl
  | _, _, _, _, .record hs, .record hs' => by rw [hs.unique hs']

private theorem ZeroesFields.unique : ∀ {h fs r r'}, ZeroesFields aliases h fs r → ZeroesFields aliases h fs r' → r = r'
  | _, _, _, _, .nil, .nil => rfl
  | _, _, _, _, .stop hz, .stop hz' => congrArg Except.error (Except.error.inj (hz.unique hz'))
  | _, _, _, _, .stop hz, .cons hz' _ => nomatch hz.unique hz'
  | _, _, _, _, .cons hz _, .stop hz' => nomatch hz.unique hz'
  | _, _, _, _, .cons hz hs, .cons hz' hs' => by
    cases hz.unique hz'
    rw [hs.unique hs']

end

private theorem ne_named_of_follow {left : Nat} {seen : List String} {t u : Ty} (h : aliases.follow left seen t = .ok u)
    (n : String) : u ≠ .named n := by
  induction left generalizing seen t with
  | zero =>
    cases t with
    | named m =>
      obtain ⟨_, _, hk, -⟩ := Aliases.follow_eq_ok h
      cases hk
    | _ =>
      simp only [Aliases.follow, Except.ok.injEq] at h
      rintro rfl
      cases h
  | succ left ih =>
    cases t with
    | named m =>
      obtain ⟨_, t, hk, -, -, h⟩ := Aliases.follow_eq_ok h
      cases hk
      exact ih h
    | _ =>
      simp only [Aliases.follow, Except.ok.injEq] at h
      rintro rfl
      cases h

/-- A type that is no name stands for itself. -/
private theorem underlying_self {u : Ty} (h : ∀ n, u ≠ .named n) : aliases.underlying u = .ok u := by
  cases u with
  | named n => exact absurd rfl (h n)
  | _ => simp [Aliases.underlying, Aliases.follow]

variable {onName : String → Heap → Except ZeroError (Value × Heap)}

mutual

/-- What the bounded recursion makes, the other makes too, when that is so of names. -/
private theorem zeroes_of_zeroWith (hn : ∀ n h r, onName n h = .ok r → Zeroes aliases h (.named n) (.ok r)) :
    ∀ (t : Ty) {h r}, zeroWith onName h t = .ok r → Zeroes aliases h t (.ok r)
  | .void, _, _, hz => nomatch hz
  | .int, _, _, hz => by cases hz; exact .resolved (underlying_self nofun) .int
  | .bool, _, _, hz => by cases hz; exact .resolved (underlying_self nofun) .bool
  | .string, _, _, hz => by cases hz; exact .resolved (underlying_self nofun) .string
  | .list t, _, _, hz => by cases hz; exact .resolved (underlying_self nofun) .list
  | .named n, h, r, hz => hn n h r hz
  | .record fs, h, _, hz => by
    obtain ⟨⟨vs, h'⟩, hs, hz⟩ := Partial.then_eq_ok.mp hz
    cases hz
    exact .resolved (underlying_self nofun) (.record (zeroesFields_of_zeroWith hn fs hs))

private theorem zeroesFields_of_zeroWith (hn : ∀ n h r, onName n h = .ok r → Zeroes aliases h (.named n) (.ok r)) :
    ∀ (fs : List (String × Ty)) {h r}, zeroFieldsWith onName h fs = .ok r → ZeroesFields aliases h fs (.ok r)
  | [], _, _, hs => by cases hs; exact .nil
  | (n, t) :: fs, h, _, hs => by
    obtain ⟨⟨v, h'⟩, hz, hs⟩ := Partial.then_eq_ok.mp hs
    obtain ⟨⟨vs, h''⟩, hs', hs⟩ := Partial.then_eq_ok.mp hs
    cases hs
    exact .cons (zeroes_of_zeroWith hn t hz) (zeroesFields_of_zeroWith hn fs hs')

end

private theorem zeroes_of_zeroName {left : Nat} {n : String} {h : Heap} {r : Value × Heap}
    (hz : zeroName aliases left n h = .ok r) : Zeroes aliases h (.named n) (.ok r) := by
  induction left generalizing n h r with
  | zero => cases hz
  | succ left ih =>
    rw [zeroName] at hz
    cases hu : aliases.underlying (.named n) with
    | error e => simp [hu] at hz
    | ok u =>
      simp only [hu] at hz
      cases zeroes_of_zeroWith (fun _ _ _ => ih) u hz with
      | resolved hu' hplain =>
        cases (underlying_self (ne_named_of_follow hu)).symm.trans hu'
        exact .resolved hu hplain

theorem Zeroes.of_zero {t : Ty} {h : Heap} {r : Value × Heap} (hz : zero aliases h t = .ok r) :
    Zeroes aliases h t (.ok r) := zeroes_of_zeroWith (fun _ _ _ => zeroes_of_zeroName) t hz

end
end Eval

namespace Lower
variable {aliases : Aliases} {t : Ty} {m : Machine.Ty}

/-- The type that stands behind a name is none, and it has the kind and the layout of the name. -/
private theorem underlying_of_valueLayout (h : valueLayout aliases t = .ok m) :
    ∃ u, aliases.underlying t = .ok u ∧ (∀ n, u ≠ .named n) ∧ SameHead u m ∧ valueLayout aliases u = .ok m := by
  obtain ⟨u, left, seen, hu, hl, hm⟩ := Simulation.layoutWith_follow h
  obtain ⟨u', hu', hs⟩ := underlying_of_layout (layout_of_valueLayout h)
  cases hu.symm.trans hu'
  refine ⟨u, hu, ?_, hs, ?_⟩
  · rintro n rfl
    cases hs
  · exact layoutWith_mono (fun _ _ _ => nameLayout_mono hl (List.nil_subset seen)) u hm

/-- A type with the layout of a value stands for one of that kind and layout, with the same fields in the same order. Both
sides have a zero value of it, evaluation's recursion ends with one outcome, and the values are equal in every heap that
holds both. -/
theorem types_resolve_alike (h : valueLayout aliases t = .ok m) :
    (∃ u, aliases.underlying t = .ok u ∧ (∀ n, u ≠ .named n) ∧ SameHead u m ∧ valueLayout aliases u = .ok m) ∧
    (∀ heap, ∃ w heap', Machine.zero heap m = .ok (w, heap')) ∧
    ∀ heap, ∃ v heap₁, (∀ r, Eval.Zeroes aliases heap t r ↔ r = .ok (v, heap₁)) ∧
      Eval.zero aliases heap t = .ok (v, heap₁) ∧
      ∀ heap₂, heap₁.Extends heap₂ → ∃ w heap₃, Machine.zero heap₂ m = .ok (w, heap₃) ∧
        heap₃.equal v w = true ∧ heap₃.equal w v = true := by
  have hm := valueLayout_isValue h
  refine ⟨underlying_of_valueLayout h, fun heap => ?_, fun heap => ?_⟩
  · obtain ⟨w, heap', hz, -⟩ := Simulation.zero_fresh heap hm
    exact ⟨w, heap', hz⟩
  · obtain ⟨v, heap₁, hz, -, F, f, -⟩ := Evaluation.zero_fresh (Simulation.zero_of_layout h) heap
    refine ⟨v, heap₁, fun r => ⟨fun hr => hr.unique (.of_zero hz), ?_⟩, hz, fun heap₂ hext => ?_⟩
    · rintro rfl
      exact .of_zero hz
    · obtain ⟨w, heap₃, hw, hext', G, g, -⟩ := Simulation.zero_fresh heap₂ hm
      have hv := f.extend (hext.trans hext')
      have hself := Tree.equal_self (Simulation.zeroTree_comparable hm)
      exact ⟨w, heap₃, hw, by rw [hv.equal_eq g, hself], by rw [g.equal_eq hv, hself]⟩

/-- A record of a name used twice, through another name. -/
theorem pair_resolves_alike :
    let aliases : Aliases := [("tags", .list .string), ("pair", .record [("a", .named "tags"), ("b", .named "tags")]),
      ("both", .named "pair")]
    valueLayout aliases (.named "both") = .ok (.record [("a", .list .string), ("b", .list .string)]) ∧
    aliases.underlying (.named "both") = .ok (.record [("a", .named "tags"), ("b", .named "tags")]) ∧
    ∃ v heap w heap', Eval.zero aliases Heap.empty (.named "both") = .ok (v, heap) ∧
      Machine.zero heap (.record [("a", .list .string), ("b", .list .string)]) = .ok (w, heap') ∧
      heap'.equal v w = true := by
  have hm : valueLayout [("tags", .list .string), ("pair", .record [("a", .named "tags"), ("b", .named "tags")]),
      ("both", .named "pair")] (.named "both") = .ok (.record [("a", .list .string), ("b", .list .string)]) := by decide
  obtain ⟨-, -, hzero⟩ := types_resolve_alike hm
  obtain ⟨v, heap, -, hz, hall⟩ := hzero Heap.empty
  obtain ⟨w, heap', hw, he, -⟩ := hall heap (.refl heap)
  exact ⟨hm, by decide, v, heap, w, heap', hz, hw, he⟩

end Lower
end WhileStack

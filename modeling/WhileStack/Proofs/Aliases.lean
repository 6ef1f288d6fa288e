import WhileStack.Proofs.Lower.Layout
import WhileStack.Proofs.Lower.Retyped
import WhileStack.Proofs.Source.Structural

/-! Names of types make no difference to the code: a program compiles as it does with all names written out. -/
namespace WhileStack
open Source (Ty Aliases Expands ExpandsFields FunDecl)
open Lower

/-- The type with every name that has a layout replaced by what it stands for, at every depth. -/
def Lower.structural (aliases : Aliases) (t : Ty) : Ty :=
  t.expandWith fun n => if (layout aliases (.named n)).isOk then aliases.expansion aliases.length n else .named n

/-- The program with the names of types written out in all functions, and without declarations of types. -/
def Source.Program.structural (p : Source.Program) : Source.Program :=
  ⟨p.functions.map fun f => .fn (f.retype (Lower.structural p.aliases))⟩

namespace Lower

section
variable {onName onName' : String → Bool → Except LayoutError Machine.Ty} {g : String → Ty} {aliases : Aliases}

mutual

/-- Where a name has the layout of what replaces it, a type has the layout of its expansion. -/
private theorem layoutWith_expandWith (hg : ∀ n b m, onName n b = .ok m → layoutWith onName' b (g n) = .ok m) :
    ∀ (t : Ty) {b m}, layoutWith onName b t = .ok m → layoutWith onName' b (t.expandWith g) = .ok m
  | .void, _, _, h | .bool, _, _, h | .int, _, _, h | .string, _, _, h => h
  | .named n, b, m, h => hg n b m h
  | .list t, _, _, h => by
    obtain ⟨u, hu, h⟩ := Partial.then_eq_ok.mp h
    exact Partial.then_eq_ok.mpr ⟨u, layoutWith_expandWith hg t hu, h⟩
  | .record fs, _, _, h => by
    obtain ⟨us, hus, h⟩ := Partial.then_eq_ok.mp h
    exact Partial.then_eq_ok.mpr ⟨us, fieldLayouts_expandFields hg fs hus, h⟩

private theorem fieldLayouts_expandFields (hg : ∀ n b m, onName n b = .ok m → layoutWith onName' b (g n) = .ok m) :
    ∀ (fs : List (String × Ty)) {ms}, fieldLayouts onName fs = .ok ms →
      fieldLayouts onName' (Ty.expandFields g fs) = .ok ms
  | [], _, h => h
  | (_, t) :: fs, _, h => by
    obtain ⟨u, hu, h⟩ := Partial.then_eq_ok.mp h
    obtain ⟨us, hus, h⟩ := Partial.then_eq_ok.mp h
    exact Partial.then_eq_ok.mpr ⟨u, layoutWith_expandWith hg t hu,
      Partial.then_eq_ok.mpr ⟨us, fieldLayouts_expandFields hg fs hus, h⟩⟩

end

mutual

private theorem expands_expandWith (hg : ∀ n b m, onName n b = .ok m → Expands aliases (.named n) (g n)) :
    ∀ (t : Ty) {b m}, layoutWith onName b t = .ok m → Expands aliases t (t.expandWith g)
  | .void, _, _, _ => .void
  | .bool, _, _, _ => .bool
  | .int, _, _, _ => .int
  | .string, _, _, _ => .string
  | .named n, b, m, h => hg n b m h
  | .list t, _, _, h => by
    obtain ⟨u, hu, -⟩ := Partial.then_eq_ok.mp h
    exact .list (expands_expandWith hg t hu)
  | .record fs, _, _, h => by
    obtain ⟨us, hus, -⟩ := Partial.then_eq_ok.mp h
    exact .record (expands_expandFields hg fs hus)

private theorem expands_expandFields (hg : ∀ n b m, onName n b = .ok m → Expands aliases (.named n) (g n)) :
    ∀ (fs : List (String × Ty)) {ms}, fieldLayouts onName fs = .ok ms → ExpandsFields aliases fs (Ty.expandFields g fs)
  | [], _, _ => .nil
  | (_, t) :: fs, _, h => by
    obtain ⟨u, hu, h⟩ := Partial.then_eq_ok.mp h
    obtain ⟨us, hus, -⟩ := Partial.then_eq_ok.mp h
    exact .cons (expands_expandWith hg t hu) (expands_expandFields hg fs hus)

end

/-- The expansion of a name has its layout, whatever other names stand for. -/
private theorem layoutWith_expansion {left : Nat} {expanding : List String} {n : String} {b : Bool} {m : Machine.Ty}
    (h : nameLayout aliases left expanding n b = .ok m) : layoutWith onName' b (aliases.expansion left n) = .ok m := by
  induction left generalizing expanding n b m with
  | zero =>
    obtain ⟨_, _, hl, -⟩ := nameLayout_eq_ok h
    omega
  | succ left ih =>
    obtain ⟨_, t, hl, -, ht, h⟩ := nameLayout_eq_ok h
    cases hl
    rw [Aliases.expansion_succ ht]
    exact layoutWith_expandWith (fun _ _ _ h => ih h) t h

private theorem expands_expansion {left : Nat} {expanding : List String} {n : String} {b : Bool} {m : Machine.Ty}
    (h : nameLayout aliases left expanding n b = .ok m) : Expands aliases (.named n) (aliases.expansion left n) := by
  induction left generalizing expanding n b m with
  | zero =>
    obtain ⟨_, _, hl, -⟩ := nameLayout_eq_ok h
    omega
  | succ left ih =>
    obtain ⟨_, t, hl, -, ht, h⟩ := nameLayout_eq_ok h
    cases hl
    rw [Aliases.expansion_succ ht]
    exact .named ht (expands_expandWith (fun _ _ _ h => ih h) t h)

private theorem layout_named {n : String} {b : Bool} {m : Machine.Ty}
    (h : nameLayout aliases aliases.length [] n b = .ok m) : layout aliases (.named n) = .ok m := by
  cases b with
  | true => exact h
  | false => exact layout_of_valueLayout h

private theorem structural_named {n : String} {m : Machine.Ty} (h : layout aliases (.named n) = .ok m) :
    structural aliases (.named n) = aliases.expansion aliases.length n := by
  simp [structural, Ty.expandWith, h, Except.isOk, Except.toBool]

/-- Types that have a layout keep it, whatever names stand for afterwards. -/
private theorem layoutsKept_structural (aliases aliases' : Aliases) :
    LayoutsKept (structural aliases) aliases aliases' := by
  have hg (n : String) (b : Bool) (m : Machine.Ty) (h : nameLayout aliases aliases.length [] n b = .ok m) :
      layoutWith (nameLayout aliases' aliases'.length []) b (structural aliases (.named n)) = .ok m := by
    rw [structural_named (layout_named h)]
    exact layoutWith_expansion h
  exact ⟨fun t _ h => layoutWith_expandWith hg t h, fun t _ h => layoutWith_expandWith hg t h⟩

private theorem functions_structural (p : Source.Program) :
    p.structural.functions = p.functions.map (FunDecl.retype (structural p.aliases)) := by
  simp only [Source.Program.structural, Source.Program.functions, List.filterMap_map, Function.comp_def]
  simp

end

end Lower

/-- A program that is compiled is so with all names of types written out, to the same program. Every name that has a
layout is written out to its end. -/
theorem aliases_transparent {o : Options} {p : Source.Program} {c : Machine.Program} (h : compile o p = .ok c) :
    compile o p.structural = .ok c ∧ p.structural.types = [] ∧
      ∀ n m, layout p.aliases (.named n) = .ok m → Expands p.aliases (.named n) (structural p.aliases (.named n)) := by
  have hp : Retyped (structural p.aliases) p p.structural :=
    ⟨.of_eq (functions_structural p), layoutsKept_structural _ _⟩
  obtain ⟨c', hc', -, hmethods⟩ := hp.compile h o
  have hsame : c' = c := by
    obtain ⟨-, -, -, hname, hversion⟩ := compile_eq_ok_iff.mp h
    obtain ⟨-, -, -, hname', hversion'⟩ := compile_eq_ok_iff.mp hc'
    have hm := hmethods (functions_structural p)
    rw [Machine.Method.map_reclass_self] at hm
    obtain ⟨name, version, methods⟩ := c
    obtain ⟨name', version', methods'⟩ := c'
    simp_all
  refine ⟨hsame ▸ hc', by simp [Source.Program.structural, Source.Program.types], fun n m hn => ?_⟩
  rw [structural_named hn]
  exact expands_expansion hn

/-- A list of records, both under names, and a name in front of its declaration. -/
private def renamed : Source.Program :=
  let point : Source.Attr := ⟨.named "point", .unknown⟩
  let number (n : Int) : Source.Expr := .const ⟨.named "coordinate", .unknown⟩ (.int n)
  ⟨[.type ⟨.unknown, "path", .list (.named "point")⟩,
    .fn ⟨.unknown, "main", [], .void,
      [.print .unknown (.call ⟨.named "coordinate", .unknown⟩ "first"
        [.list ⟨.named "path", .unknown⟩ [.record point [("x", number 1), ("y", number 2)]]])], true⟩,
    .type ⟨.unknown, "point", .record [("x", .named "coordinate"), ("y", .named "coordinate")]⟩,
    .type ⟨.unknown, "coordinate", .int⟩,
    .fn ⟨.unknown, "first", [("points", .named "path")], .named "coordinate",
      [.ret .unknown (some (.field ⟨.int, .unknown⟩
        (.index point (.var ⟨.list (.named "point"), .unknown⟩ "points") (number 0)) "x"))], false⟩]⟩

theorem renamed_transparent : ∃ c, compile (.standard "Q") renamed = .ok c ∧
    compile (.standard "Q") renamed.structural = .ok c ∧
    renamed.structural.functions.map FunDecl.params = [[], [("points", .list (.record [("x", .int), ("y", .int)]))]] ∧
    Expands renamed.aliases (.named "path") (.list (.record [("x", .int), ("y", .int)])) := by
  obtain ⟨c, hc⟩ : ∃ c, compile (.standard "Q") renamed = .ok c := Partial.exists_eq_ok (by decide +kernel)
  obtain ⟨hs, -, hexpands⟩ := aliases_transparent hc
  exact ⟨c, hc, hs, rfl, hexpands "path" _ rfl⟩

end WhileStack

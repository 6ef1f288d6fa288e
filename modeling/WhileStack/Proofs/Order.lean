import Mathlib.Data.List.Find
import Mathlib.Data.List.Nodup
import WhileStack.Machine.Run
import WhileStack.Proofs.Lower.Retyped

/-! The order of declarations makes no difference. Types are found by their names and functions by theirs, so only type
declarations under one name have to stay in their order. -/
namespace WhileStack
open Source (FunDecl TypeDecl Aliases)
open Machine (Method)
open Lower

/-- The declarations of one program in the order of the other. Type declarations that share a name keep theirs. -/
structure Reordered (p p' : Source.Program) : Prop where
  decls : p'.decls.Perm p.decls
  types : ∀ name, p'.types.filter (fun t => t.name = name) = p.types.filter fun t => t.name = name

namespace Reordered
variable {p p' : Source.Program}

theorem symm (h : Reordered p p') : Reordered p' p := ⟨h.decls.symm, fun name => (h.types name).symm⟩

theorem functions (h : Reordered p p') : p'.functions.Perm p.functions := h.decls.filterMap _

/-- The first entry under a name is the first of all entries under that name. -/
private theorem lookup_filter (aliases : Aliases) (name : String) :
    (aliases.filter fun e => e.1 = name).lookup name = aliases.lookup name := by
  induction aliases with
  | nil => rfl
  | cons e aliases ih =>
    obtain ⟨n, t⟩ := e
    by_cases hn : n = name
    · rw [List.filter_cons_of_pos (by simp [hn]), List.lookup_cons, List.lookup_cons, ih]
    · rw [List.filter_cons_of_neg (by simp [hn]), List.lookup_cons, beq_false_of_ne (Ne.symm hn), ih]

theorem lookup (h : Reordered p p') (name : String) : p'.aliases.lookup name = p.aliases.lookup name := by
  rw [← lookup_filter p'.aliases, ← lookup_filter p.aliases]
  simp only [Source.Program.aliases, List.filter_reverse, List.filter_map, Function.comp_def, h.types name]

theorem length (h : Reordered p p') : p'.aliases.length = p.aliases.length := by
  have htypes : p'.types.Perm p.types := h.decls.filterMap _
  simp only [Source.Program.aliases, List.length_reverse, List.length_map, htypes.length_eq]

private theorem nameLayout_congr {aliases aliases' : Aliases} (h : ∀ name, aliases'.lookup name = aliases.lookup name)
    (left : Nat) (expanding : List String) : nameLayout aliases' left expanding = nameLayout aliases left expanding := by
  induction left generalizing expanding with
  | zero =>
    funext n b
    unfold nameLayout
    rw [h]
    cases aliases.lookup n <;> rfl
  | succ left ih =>
    funext n b
    unfold nameLayout
    rw [h]
    cases aliases.lookup n with
    | none => rfl
    | some t => simp only [ih]

theorem layoutsKept (h : Reordered p p') : LayoutsKept (fun t => t) p.aliases p'.aliases := by
  constructor
  · intro t m ht
    rwa [layout, h.length, nameLayout_congr h.lookup]
  · intro t m ht
    rwa [valueLayout, h.length, nameLayout_congr h.lookup]

theorem retyped (h : Reordered p p') : Retyped (fun t => t) p p' := by
  refine ⟨?_, h.layoutsKept⟩
  rw [map_retype_id]
  exact h.functions

end Reordered

namespace Machine
variable {c c' : Program}

theorem step_congr (h : ∀ name, c'.method? name = c.method? name) (s : State) : step c' s = step c s := by
  unfold step invoke
  simp only [h]

theorem runFrom_congr (h : ∀ name, c'.method? name = c.method? name) (budget : Nat) (s : State) :
    runFrom c' budget s = runFrom c budget s := by
  induction budget generalizing s with
  | zero => rfl
  | succ budget ih =>
    simp only [runFrom, step_congr h]
    cases step c s with
    | running s' => exact ih s'
    | _ => rfl

/-- A run depends on the method of each name and on the entry point. -/
theorem run_congr (h : ∀ name, c'.method? name = c.method? name) (he : c'.entry? = c.entry?) (budget : Nat)
    (args : List String) : run c' budget args = run c budget args := by
  unfold run start
  rw [he]
  simp only [runFrom_congr h]

end Machine

section
variable {o : Options} {p p' : Source.Program} {c c' : Machine.Program}

/-- Compiled methods have different names, and one of them at most is the entry point. -/
private theorem compiled_distinct (h : compile o p = .ok c) :
    (c.methods.map Method.name).Nodup ∧ (c.methods.filter Method.isEntry).length ≤ 1 := by
  obtain ⟨env, he, hc⟩ := compile_eq_ok h
  have hp := environment_isOk.mp ⟨env, he⟩
  have hnames : c.methods.map Method.name = p.functions.map FunDecl.name := by
    rw [← List.forall₂_eq_eq_eq, List.forall₂_map_left_iff, List.forall₂_map_right_iff]
    exact hc.methods.flip.imp fun _ _ ⟨_, _, _, hi⟩ => hi.name_eq
  have hentries : c.methods.map Method.isEntry = p.functions.map FunDecl.isEntry := by
    rw [← List.forall₂_eq_eq_eq, List.forall₂_map_left_iff, List.forall₂_map_right_iff]
    exact hc.methods.flip.imp fun _ _ ⟨_, _, _, hi⟩ => hi.entry_eq
  refine ⟨hnames ▸ hp.distinct, ?_⟩
  have hcount := congrArg (List.countP id) hentries
  rw [List.countP_map, List.countP_map, List.countP_eq_length_filter, List.countP_eq_length_filter] at hcount
  exact hcount.trans_le hp.one_entry

private theorem method?_eq_of_perm (hn : (c.methods.map Method.name).Nodup) (hp : c'.methods.Perm c.methods)
    (name : String) : c'.method? name = c.method? name := by
  refine (List.find?_eq_find?_of_perm hp.symm ?_).symm
  rintro m ⟨hm, hname⟩ m' ⟨hm', hname'⟩
  exact List.inj_on_of_nodup_map hn hm hm' (by simp_all)

private theorem entry?_eq_of_perm (hn : (c.methods.filter Method.isEntry).length ≤ 1) (hp : c'.methods.Perm c.methods) :
    c'.entry? = c.entry? := by
  refine (List.find?_eq_find?_of_perm hp.symm ?_).symm
  rintro m hm m' hm'
  have hmem := List.mem_filter.mpr hm
  have hmem' := List.mem_filter.mpr hm'
  obtain ⟨x, hx⟩ := List.length_eq_one_iff.mp (Nat.le_antisymm hn (List.length_pos_of_mem hmem))
  rw [hx, List.mem_singleton] at hmem hmem'
  rw [hmem, hmem']

end

/-- Programs with the same declarations are compiled alike, to the same methods, and run alike. -/
theorem order_irrelevant (o : Options) {p p' : Source.Program} (h : Reordered p p') :
    ((∃ c, compile o p = .ok c) ↔ ∃ c', compile o p' = .ok c') ∧
      ∀ c c', compile o p = .ok c → compile o p' = .ok c' →
        c'.methods.Perm c.methods ∧
        (∀ f ∈ p.functions, ∃ m, c.method? f.name = some m ∧ c'.method? f.name = some m) ∧
        ∀ budget args, Machine.run c' budget args = Machine.run c budget args := by
  refine ⟨⟨fun ⟨c, hc⟩ => ?_, fun ⟨c', hc'⟩ => ?_⟩, fun c c' hc hc' => ?_⟩
  · obtain ⟨c', hc', -⟩ := h.retyped.compile hc o
    exact ⟨c', hc'⟩
  · obtain ⟨c, hc, -⟩ := h.symm.retyped.compile hc' o
    exact ⟨c, hc⟩
  · obtain ⟨c'', hc'', hperm, -⟩ := h.retyped.compile hc o
    cases hc'.symm.trans hc''
    rw [Method.map_reclass_self] at hperm
    obtain ⟨hnames, hentries⟩ := compiled_distinct hc
    have hmethod := method?_eq_of_perm hnames hperm
    refine ⟨hperm, fun f hf => ?_, Machine.run_congr hmethod (entry?_eq_of_perm hentries hperm)⟩
    rw [hmethod]
    obtain ⟨env, he, hcompiled⟩ := compile_eq_ok hc
    obtain ⟨sig, hsig, hlookup⟩ := (environment_eq_ok he).2.1 f hf
    obtain ⟨-, m, -, hm, -⟩ := hcompiled.method hlookup
    obtain ⟨-, -, -, -, -, hname⟩ := signatureOf_eq_ok hsig
    exact ⟨m, hname ▸ hm, hname ▸ hm⟩

/-- A type that is declared twice: the second declaration counts. -/
private def numbers : List Source.Decl := [.type ⟨.unknown, "number", .string⟩, .type ⟨.unknown, "number", .int⟩]

private def rows : List Source.Decl := [.type ⟨.unknown, "row", .list (.named "number")⟩]

private def sizes : List Source.Decl :=
  let number (n : Int) : Source.Expr := .const ⟨.int, .unknown⟩ (.int n)
  [.fn ⟨.unknown, "main", [], .void, [.print .unknown (.call ⟨.named "number", .unknown⟩ "size"
      [.list ⟨.named "row", .unknown⟩ [number 4, number 2]])], true⟩,
    .fn ⟨.unknown, "size", [("row", .named "row")], .named "number",
      [.ret .unknown (some (.unary ⟨.int, .unknown⟩ .length (.var ⟨.named "row", .unknown⟩ "row")))], false⟩]

/-- The same program in two orders. -/
theorem sizes_reordered : Reordered ⟨numbers ++ rows ++ sizes⟩ ⟨sizes.reverse ++ (rows ++ numbers)⟩ ∧
    ∃ c c', compile (.standard "Q") ⟨numbers ++ rows ++ sizes⟩ = .ok c ∧
      compile (.standard "Q") ⟨sizes.reverse ++ (rows ++ numbers)⟩ = .ok c' ∧
      c.methods.map Method.name = ["main", "size"] ∧ c'.methods.map Method.name = ["size", "main"] ∧
      c'.methods.Perm c.methods ∧ Machine.run c' 20 [] = some ⟨"2\n", 11, none⟩ := by
  have h : Reordered ⟨numbers ++ rows ++ sizes⟩ ⟨sizes.reverse ++ (rows ++ numbers)⟩ := by
    refine ⟨((List.reverse_perm _).append List.perm_append_comm).trans List.perm_append_comm, fun name => ?_⟩
    by_cases hn : "number" = name
    · subst hn
      rfl
    · by_cases hr : "row" = name
      · subst hr
        rfl
      · simp [Source.Program.types, numbers, rows, sizes, hn, hr]
  have hc : (compile (.standard "Q") ⟨numbers ++ rows ++ sizes⟩).toOption.map
      (fun c => (c.methods.map Method.name, Machine.run c 20 [])) = some (["main", "size"], some ⟨"2\n", 11, none⟩) := by
    decide +kernel
  have hc' : (compile (.standard "Q") ⟨sizes.reverse ++ (rows ++ numbers)⟩).toOption.map
      (fun c => c.methods.map Method.name) = some ["size", "main"] := by decide +kernel
  obtain ⟨c, hc, hm⟩ := Partial.eq_ok_of_toOption_map hc
  obtain ⟨c', hc', hm'⟩ := Partial.eq_ok_of_toOption_map hc'
  obtain ⟨hperm, -, hrun⟩ := (order_irrelevant _ h).2 c c' hc hc'
  obtain ⟨hnames, hout⟩ := Prod.mk.inj hm
  exact ⟨h, c, c', hc, hc', hnames, hm', hperm, (hrun 20 []).trans hout⟩

end WhileStack

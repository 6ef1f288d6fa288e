import Mathlib.Data.List.Forall2
import WhileStack.Proofs.Exec
import WhileStack.Scenario.Basic

/-! The scenarios of a document. Its headings divide it into prose and one section for each scenario. The document gives
one scenario for each section, of that section's fences, if every section has one program and a check at least and no
other fence of the document has a language; else it gives none. -/
namespace WhileStack.Scenario
open Markdown (Block Fence)

/-- A part of a document that starts at the heading of a scenario. -/
structure Section where
  name : String
  body : List Block

def Section.blocks (s : Section) : List Block := .heading ("Test: " ++ s.name) :: s.body

/-- No scenario starts among the blocks. -/
def Unheaded (bs : List Block) : Prop := ∀ name, Block.heading ("Test: " ++ name) ∉ bs

/-- A document is prose followed by sections, and no scenario starts inside any of them. -/
structure Divides (bs prose : List Block) (sections : List Section) : Prop where
  blocks_eq : bs = prose ++ sections.flatMap Section.blocks
  prose_unheaded : Unheaded prose
  body_unheaded : ∀ s ∈ sections, Unheaded s.body

def fences (bs : List Block) : List Fence :=
  bs.filterMap fun
    | .fence f => some f
    | .heading _ => none

@[simp] theorem fences_nil : fences [] = [] := rfl

@[simp] theorem fences_heading (t : String) (bs : List Block) : fences (.heading t :: bs) = fences bs := rfl

@[simp] theorem fences_fence (f : Fence) (bs : List Block) : fences (.fence f :: bs) = f :: fences bs := rfl

def isInput (f : Fence) : Bool := f.language = "while-ast"

def isCheck (f : Fence) : Bool := ["bytecode", "execute", "compile-error", "locals"].contains f.language

/-- A check is what its fence says. The content of a slot layout is read besides. -/
structure States (f : Fence) (c : Check) : Prop where
  kind_eq : c.kind.text = f.language
  content_eq : c.content = f.trimmed
  line_eq : c.line = f.line
  datum_eq : if f.language = "locals" then ∃ d, Datum.parse f.trimmed = .ok d ∧ c.datum = some d else c.datum = none

/-- A scenario is made of the fences of its section: of the one program there, and of all checks in their order. -/
structure Section.Gives (s : Section) (x : Scenario) : Prop where
  name_eq : x.name = s.name
  input : ∃ f, (fences s.body).filter isInput = [f] ∧ x.input = f.trimmed ∧ Datum.parse x.input = .ok x.datum
  checks : List.Forall₂ States ((fences s.body).filter isCheck) x.checks
  checks_ne : x.checks ≠ []
  prose : ∀ f ∈ fences s.body, isInput f = false → isCheck f = false → f.language = ""

/-! ### Division into sections -/

section
variable {b : Block} {bs prose : List Block} {sections : List Section} {t name : String}

theorem titleOf?_eq_some_iff : titleOf? t = some name ↔ t = "Test: " ++ name := by
  unfold titleOf?
  constructor
  · intro h
    split at h
    · rename_i cs hcs
      cases h
      rw [← String.toList_inj, hcs]
      simp
    · cases h
  · rintro rfl
    simp

/-- The name of the scenario that starts at a block. -/
private def opens? : Block → Option String
  | .heading t => titleOf? t
  | .fence _ => none

private theorem opens?_eq_some_iff : opens? b = some name ↔ b = .heading ("Test: " ++ name) := by
  cases b with
  | heading t => simp [opens?, titleOf?_eq_some_iff]
  | fence f => simp [opens?]

private theorem Unheaded.cons_iff : Unheaded (b :: bs) ↔ opens? b = none ∧ Unheaded bs := by
  simp only [Unheaded, List.mem_cons, not_or, forall_and, Option.eq_none_iff_forall_ne_some, ne_eq, opens?_eq_some_iff,
    eq_comm (a := b)]

/-- Cuts at the headings of scenarios. -/
private def divide : List Block → List Block × List Section
  | [] => ([], [])
  | b :: bs =>
    match opens? b with
    | none => (b :: (divide bs).1, (divide bs).2)
    | some name => ([], ⟨name, (divide bs).1⟩ :: (divide bs).2)

private theorem divide_divides (bs : List Block) : Divides bs (divide bs).1 (divide bs).2 := by
  induction bs with
  | nil => exact ⟨rfl, by simp [divide, Unheaded], by simp [divide]⟩
  | cons b bs ih =>
    obtain ⟨heq, hprose, hbody⟩ := ih
    unfold divide
    split
    · rename_i hb
      exact ⟨by rw [List.cons_append, ← heq], Unheaded.cons_iff.mpr ⟨hb, hprose⟩, hbody⟩
    · rename_i name hb
      rw [opens?_eq_some_iff] at hb
      refine ⟨?_, by simp [Unheaded], List.forall_mem_cons.mpr ⟨hprose, hbody⟩⟩
      rw [List.nil_append, List.flatMap_cons, Section.blocks, List.cons_append, ← heq, hb]

/-- There is one division only. -/
private theorem Divides.eq_divide (h : Divides bs prose sections) : divide bs = (prose, sections) := by
  induction bs generalizing prose sections with
  | nil =>
    obtain ⟨rfl, hs⟩ := List.append_eq_nil_iff.mp h.blocks_eq.symm
    cases sections with
    | nil => rfl
    | cons s sections => cases hs
  | cons b bs ih =>
    obtain ⟨heq, hprose, hbody⟩ := h
    cases prose with
    | cons b' prose =>
      obtain ⟨rfl, htail⟩ := List.cons.inj heq
      obtain ⟨hb, hprose⟩ := Unheaded.cons_iff.mp hprose
      simp only [divide, hb, ih ⟨htail, hprose, hbody⟩]
    | nil =>
      cases sections with
      | nil => cases heq
      | cons s sections =>
        obtain ⟨hb, htail⟩ := List.cons.inj heq
        obtain ⟨hs, hbody⟩ := List.forall_mem_cons.mp hbody
        simp only [divide, opens?_eq_some_iff.mpr hb, ih ⟨htail, hs, hbody⟩]

end

/-! ### What one fence does to a scenario, and what all of them do -/

section
variable {d d' : Draft} {f : Fence} {fs : List Fence} {x : Scenario}

private theorem isInput_iff : isInput f = true ↔ f.language = inputLanguage := by simp [isInput, inputLanguage]

private theorem CheckKind.text_of_ofText? {s : String} {k : CheckKind} (h : CheckKind.ofText? s = some k) :
    k.text = s := by
  simpa using List.find?_some h

private theorem isCheck_iff : isCheck f = true ↔ ∃ k, CheckKind.ofText? f.language = some k := by
  constructor
  · intro h
    simp only [isCheck, List.contains_eq_mem, decide_eq_true_eq, List.mem_cons, List.not_mem_nil, or_false] at h
    rcases h with h | h | h | h <;> rw [h] <;> exact ⟨_, rfl⟩
  · rintro ⟨k, hk⟩
    rw [isCheck, ← CheckKind.text_of_ofText? hk]
    cases k <;> decide

private theorem CheckKind.eq_of_text_eq {j k : CheckKind} (h : j.text = k.text) : j = k := by
  cases j <;> cases k <;> first | rfl | exact absurd h (by decide)

private theorem readCheck_eq_ok {name : String} {k : CheckKind} {c : Check} (hk : k.text = f.language) :
    readCheck name k f = .ok c ↔ States f c := by
  have hlocals : k = .locals ↔ f.language = "locals" := by
    rw [← hk]
    exact ⟨congrArg CheckKind.text, fun h => CheckKind.eq_of_text_eq h⟩
  obtain ⟨kind, content, line, datum⟩ := c
  have hstates : States f ⟨kind, content, line, datum⟩ ↔ k = kind ∧ f.trimmed = content ∧ f.line = line ∧
      if k = .locals then ∃ x, Datum.parse f.trimmed = .ok x ∧ some x = datum else none = datum := by
    simp only [hlocals]
    constructor
    · rintro ⟨hkind, rfl, rfl, hdatum⟩
      exact ⟨(CheckKind.eq_of_text_eq (hkind.trans hk.symm)).symm, rfl, rfl, by simpa only [eq_comm] using hdatum⟩
    · rintro ⟨rfl, rfl, rfl, hdatum⟩
      exact ⟨hk, rfl, rfl, by simpa only [eq_comm] using hdatum⟩
  rw [hstates]
  unfold readCheck
  split
  · simp only [Partial.map_eq_ok, Partial.mapError_eq_ok, Check.mk.injEq, if_true]
    constructor
    · rintro ⟨x, hx, hkind, hcontent, hline, hdatum⟩
      exact ⟨hkind, hcontent, hline, x, hx, hdatum⟩
    · rintro ⟨hkind, hcontent, hline, x, hx, hdatum⟩
      exact ⟨x, hx, hkind, hcontent, hline, hdatum⟩
  · rename_i hne
    have hk' : k ≠ .locals := fun h => hne h
    rw [if_neg hk']
    simp

private theorem add_input (h : isInput f = true) : d.add f = .ok d' ↔
    d.input = "" ∧ ∃ x, Datum.parse f.trimmed = .ok x ∧ { d with input := f.trimmed, datum := x } = d' := by
  simp only [Draft.add, isInput_iff.mp h, if_true]
  by_cases hd : d.input = ""
  · simp [hd, Partial.map_eq_ok, Partial.mapError_eq_ok]
  · simp [hd]

private theorem add_check (h : isCheck f = true) : d.add f = .ok d' ↔
    ∃ c, States f c ∧ { d with checks := c :: d.checks } = d' := by
  obtain ⟨k, hk⟩ := isCheck_iff.mp h
  have hin : f.language ≠ inputLanguage := by
    rintro hin
    rw [hin] at hk
    cases hk
  simp only [Draft.add, hin, if_false, hk]
  simp only [Partial.map_eq_ok, readCheck_eq_ok (CheckKind.text_of_ofText? hk)]

private theorem add_other (hi : isInput f = false) (hc : isCheck f = false) :
    d.add f = .ok d' ↔ f.language = "" ∧ d = d' := by
  have hin : f.language ≠ inputLanguage := by
    rw [ne_eq, ← isInput_iff, hi]
    nofun
  have hno : CheckKind.ofText? f.language = none := by
    rw [Option.eq_none_iff_forall_ne_some]
    rintro k hk
    rw [isCheck_iff.mpr ⟨k, hk⟩] at hc
    cases hc
  simp only [Draft.add, hin, if_false, hno]
  by_cases hl : f.language = "" <;> simp [hl]

/-- What fences make of a scenario that is being collected. -/
private structure Turns (d : Draft) (fs : List Fence) (d' : Draft) : Prop where
  name_eq : d'.name = d.name
  checks : ∃ cs, List.Forall₂ States (fs.filter isCheck) cs ∧ d'.checks = cs.reverse ++ d.checks
  input : (fs.filter isInput = [] ∧ d'.input = d.input ∧ d'.datum = d.datum) ∨
    ∃ f, fs.filter isInput = [f] ∧ d.input = "" ∧ d'.input = f.trimmed ∧ Datum.parse f.trimmed = .ok d'.datum
  prose : ∀ f ∈ fs, isInput f = false → isCheck f = false → f.language = ""

private theorem parse_empty : Datum.parse "" = .error ⟨.start, .refused .datum none⟩ := rfl

private theorem isCheck_of_isInput (h : isInput f = true) : isCheck f = false := by
  rw [isCheck, isInput_iff.mp h]
  decide

private theorem turns_cons_input (h : isInput f = true) : Turns d (f :: fs) d' ↔
    d.input = "" ∧ ∃ x, Datum.parse f.trimmed = .ok x ∧ Turns { d with input := f.trimmed, datum := x } fs d' := by
  have hc := isCheck_of_isInput h
  constructor
  · rintro ⟨hname, hchecks, hinput, hprose⟩
    simp only [List.filter_cons, h, hc, if_true, List.forall_mem_cons] at hchecks hinput hprose
    obtain ⟨g, hg, hd, hd', hx⟩ := hinput.resolve_left (by simp)
    obtain ⟨rfl, hnil⟩ := List.cons.inj hg
    exact ⟨hd, _, hx, hname, by simpa using hchecks, .inl ⟨hnil, hd', rfl⟩, hprose.2⟩
  · rintro ⟨hd, x, hx, hname, hchecks, hinput, hprose⟩
    have hne : f.trimmed ≠ "" := by
      intro he
      rw [he, parse_empty] at hx
      cases hx
    obtain ⟨hnil, hd', hdatum⟩ : fs.filter isInput = [] ∧ d'.input = f.trimmed ∧ d'.datum = x := by
      refine hinput.resolve_right ?_
      rintro ⟨g, -, he, -⟩
      exact hne he
    refine ⟨hname, by simpa [hc] using hchecks, .inr ⟨f, by simp [h, hnil], hd, hd', by rw [hdatum]; exact hx⟩, ?_⟩
    simpa [h] using hprose

private theorem turns_cons_check (h : isCheck f = true) : Turns d (f :: fs) d' ↔
    ∃ c, States f c ∧ Turns { d with checks := c :: d.checks } fs d' := by
  have hi : isInput f = false := by
    rw [Bool.eq_false_iff]
    intro hi
    rw [isCheck_of_isInput hi] at h
    cases h
  constructor
  · rintro ⟨hname, ⟨cs, hcs, hchecks⟩, hinput, hprose⟩
    simp only [List.filter_cons, h, hi, if_true] at hcs hinput
    cases hcs with
    | cons hc hcs =>
      have hprose := (List.forall_mem_cons.mp hprose).2
      exact ⟨_, hc, hname, ⟨_, hcs, by simpa using hchecks⟩, by simpa using hinput, hprose⟩
  · rintro ⟨c, hc, hname, ⟨cs, hcs, hchecks⟩, hinput, hprose⟩
    refine ⟨hname, ⟨c :: cs, by simpa [h] using ⟨hc, hcs⟩, by simpa using hchecks⟩, by simpa [hi] using hinput, ?_⟩
    simpa [h] using hprose

private theorem turns_cons_other (hi : isInput f = false) (hc : isCheck f = false) :
    Turns d (f :: fs) d' ↔ f.language = "" ∧ Turns d fs d' := by
  constructor
  · rintro ⟨hname, hchecks, hinput, hprose⟩
    obtain ⟨hf, hprose⟩ := List.forall_mem_cons.mp hprose
    exact ⟨hf hi hc, hname, by simpa [hc] using hchecks, by simpa [hi] using hinput, hprose⟩
  · rintro ⟨hf, hname, hchecks, hinput, hprose⟩
    have hprose := List.forall_mem_cons.mpr ⟨fun _ _ => hf, hprose⟩
    exact ⟨hname, by simpa [hc] using hchecks, by simpa [hi] using hinput, hprose⟩

private theorem turns_nil : Turns d [] d' ↔ d = d' := by
  constructor
  · rintro ⟨hname, ⟨cs, hcs, hchecks⟩, hinput, -⟩
    cases hcs
    obtain ⟨-, hin, hdatum⟩ := hinput.resolve_right (by simp)
    cases d
    cases d'
    simp_all
  · rintro rfl
    exact ⟨rfl, ⟨[], .nil, rfl⟩, .inl ⟨rfl, rfl, rfl⟩, by simp⟩

private theorem turns_cons : Turns d (f :: fs) d' ↔ ∃ d₁, d.add f = .ok d₁ ∧ Turns d₁ fs d' := by
  cases hi : isInput f with
  | true => simp only [turns_cons_input hi, add_input hi, and_assoc, exists_and_left, ↓existsAndEq, true_and]
  | false =>
    cases hc : isCheck f with
    | true => simp only [turns_cons_check hc, add_check hc, and_assoc, ↓existsAndEq, true_and]
    | false => simp [turns_cons_other hi hc, add_other hi hc, and_assoc]

private theorem finish_eq_ok : d.finish = .ok x ↔
    d.input ≠ "" ∧ d.checks ≠ [] ∧ (⟨d.name, d.input, d.datum, d.checks.reverse⟩ : Scenario) = x := by
  unfold Draft.finish
  by_cases hi : d.input = ""
  · simp [hi]
  · by_cases hc : d.checks = [] <;> simp [hi, hc]

/-- A scenario is finished with what the fences of its section say. -/
private theorem gives_iff {s : Section} :
    s.Gives x ↔ ∃ d, Turns (.start s.name) (fences s.body) d ∧ d.finish = .ok x := by
  constructor
  · rintro ⟨hname, ⟨f, hf, hin, hx⟩, hchecks, hne, hprose⟩
    have hnonempty : x.input ≠ "" := by
      intro he
      rw [he, parse_empty] at hx
      cases hx
    have hcollected : ∃ cs, List.Forall₂ States ((fences s.body).filter isCheck) cs ∧ x.checks.reverse = cs.reverse ++ [] :=
      ⟨x.checks, hchecks, by simp⟩
    refine ⟨⟨s.name, x.input, x.datum, x.checks.reverse⟩, ⟨rfl, hcollected, ?_, hprose⟩, ?_⟩
    · exact .inr ⟨f, hf, rfl, hin, hin ▸ hx⟩
    · exact finish_eq_ok.mpr ⟨hnonempty, by simpa using hne, by rw [List.reverse_reverse, ← hname]⟩
  · rintro ⟨d, ⟨hname, ⟨cs, hcs, hchecks⟩, hinput, hprose⟩, hd⟩
    obtain ⟨hin, hne, rfl⟩ := finish_eq_ok.mp hd
    obtain ⟨f, hf, -, hfin, hdatum⟩ := hinput.resolve_left fun h => hin h.2.1
    have hrev : d.checks.reverse = cs := by simp [hchecks, Draft.start]
    exact ⟨hname, ⟨f, hf, hfin, by rw [hfin]; exact hdatum⟩, by rw [hrev]; exact hcs, by simpa using hne, hprose⟩

end

/-! ### The scenarios of a document -/

section
variable {d : Draft} {b : Block} {bs : List Block} {xs : List Scenario}

private theorem collect_some : collect (some d) bs = .ok xs ↔ ∃ d' x xs', xs = x :: xs' ∧
    Turns d (fences (divide bs).1) d' ∧ d'.finish = .ok x ∧ List.Forall₂ Section.Gives (divide bs).2 xs' := by
  induction bs generalizing d xs with
  | nil =>
    simp only [collect, Partial.map_eq_ok, Partial.mapError_eq_ok, divide, fences_nil, turns_nil,
      List.forall₂_nil_left_iff]
    constructor
    · rintro ⟨x, hx, rfl⟩
      exact ⟨d, x, [], rfl, rfl, hx, rfl⟩
    · rintro ⟨_, x, _, rfl, rfl, hx, rfl⟩
      exact ⟨x, hx, rfl⟩
  | cons b bs ih =>
    cases b with
    | heading t =>
      cases ht : titleOf? t with
      | none => simp only [collect, ht, ih, divide, opens?, fences_heading]
      | some name =>
        simp only [collect, ht, divide, opens?, fences_nil, turns_nil, List.forall₂_cons_left_iff, gives_iff,
          Partial.then_eq_ok, Partial.mapError_eq_ok, ih]
        constructor
        · rintro ⟨x, hx, _, ⟨d', y, ys, rfl, hd', hy, hys⟩, ⟨⟩⟩
          exact ⟨d, x, y :: ys, rfl, rfl, hx, y, ys, ⟨d', hd', hy⟩, hys, rfl⟩
        · rintro ⟨_, x, _, rfl, rfl, hx, y, ys, ⟨d', hd', hy⟩, hys, rfl⟩
          exact ⟨x, hx, _, ⟨d', y, ys, rfl, hd', hy, hys⟩, rfl⟩
    | fence f =>
      simp only [collect, divide, opens?, fences_fence, turns_cons, Partial.then_eq_ok, Partial.mapError_eq_ok, ih]
      constructor
      · rintro ⟨d₁, hd₁, d', x, xs', rfl, hd', hx⟩
        exact ⟨d', x, xs', rfl, ⟨d₁, hd₁, hd'⟩, hx⟩
      · rintro ⟨d', x, xs', rfl, ⟨d₁, hd₁, hd'⟩, hx⟩
        exact ⟨d₁, hd₁, d', x, xs', rfl, hd', hx⟩

private theorem collect_none : collect none bs = .ok xs ↔
    (∀ f ∈ fences (divide bs).1, f.language = "") ∧ List.Forall₂ Section.Gives (divide bs).2 xs := by
  induction bs generalizing xs with
  | nil =>
    simp only [collect, divide, fences_nil, List.forall₂_nil_left_iff, Except.ok.injEq, eq_comm (a := xs)]
    simp
  | cons b bs ih =>
    cases b with
    | heading t =>
      cases ht : titleOf? t with
      | none => simp only [collect, ht, ih, divide, opens?, fences_heading]
      | some name =>
        simp only [collect, ht, divide, opens?, fences_nil, List.forall₂_cons_left_iff, gives_iff, collect_some]
        constructor
        · rintro ⟨d', x, xs', rfl, hd', hx, hxs⟩
          exact ⟨by simp, x, xs', ⟨d', hd', hx⟩, hxs, rfl⟩
        · rintro ⟨-, x, xs', ⟨d', hd', hx⟩, hxs, rfl⟩
          exact ⟨d', x, xs', rfl, hd', hx, hxs⟩
    | fence f =>
      by_cases hf : f.language = ""
      · simp [collect, divide, opens?, hf, ih]
      · simp [collect, divide, opens?, hf]

/-- What can be wrong with a section. -/
inductive Section.Faulty (s : Section) : Prop
  | inputs (h : ((fences s.body).filter isInput).length ≠ 1)
  | noCheck (h : (fences s.body).filter isCheck = [])
  | badInput {f : Fence} {e : Datum.SyntaxError} (hf : f ∈ fences s.body) (hi : isInput f = true)
      (h : Datum.parse f.trimmed = .error e)
  | badLocals {f : Fence} {e : Datum.SyntaxError} (hf : f ∈ fences s.body) (hl : f.language = "locals")
      (h : Datum.parse f.trimmed = .error e)
  | unknown {f : Fence} (hf : f ∈ fences s.body) (hi : isInput f = false) (hc : isCheck f = false) (h : f.language ≠ "")

private theorem exists_forall₂_iff {α β : Type} {R : α → β → Prop} {as : List α} :
    (∃ bs, List.Forall₂ R as bs) ↔ ∀ a ∈ as, ∃ b, R a b := by
  induction as with
  | nil => simp
  | cons a as ih =>
    simp only [List.forall₂_cons_left_iff, List.forall_mem_cons, ← ih]
    constructor
    · rintro ⟨_, b, bs, hb, hbs, rfl⟩
      exact ⟨⟨b, hb⟩, bs, hbs⟩
    · rintro ⟨⟨b, hb⟩, bs, hbs⟩
      exact ⟨_, b, bs, hb, hbs, rfl⟩

private theorem exists_states_iff {f : Fence} (h : isCheck f = true) :
    (∃ c, States f c) ↔ (f.language = "locals" → ∃ x, Datum.parse f.trimmed = .ok x) := by
  constructor
  · rintro ⟨c, -, -, -, hdatum⟩ hl
    rw [if_pos hl] at hdatum
    obtain ⟨x, hx, -⟩ := hdatum
    exact ⟨x, hx⟩
  · intro hx
    obtain ⟨k, hk⟩ := isCheck_iff.mp h
    by_cases hl : f.language = "locals"
    · obtain ⟨x, hx⟩ := hx hl
      refine ⟨⟨k, f.trimmed, f.line, some x⟩, CheckKind.text_of_ofText? hk, rfl, rfl, ?_⟩
      rw [if_pos hl]
      exact ⟨x, hx, rfl⟩
    · exact ⟨⟨k, f.trimmed, f.line, none⟩, CheckKind.text_of_ofText? hk, rfl, rfl, by rw [if_neg hl]⟩

private theorem Section.Gives.not_faulty {s : Section} {x : Scenario} (h : s.Gives x) : ¬ s.Faulty := by
  obtain ⟨g, hg, hin, hx⟩ := h.input
  have hchecks := exists_forall₂_iff.mp ⟨_, h.checks⟩
  intro hf
  cases hf with
  | inputs hne => exact hne (by rw [hg]; rfl)
  | noCheck hnil =>
    have hnone := h.checks
    rw [hnil, List.forall₂_nil_left_iff] at hnone
    exact h.checks_ne hnone
  | @badInput f e hf hi he =>
    have hm := List.mem_filter.mpr ⟨hf, hi⟩
    rw [hg, List.mem_singleton] at hm
    rw [hm, ← hin, hx] at he
    cases he
  | @badLocals f e hf hl he =>
    have hc : isCheck f = true := by
      rw [isCheck, hl]
      decide
    obtain ⟨x, hx⟩ := (exists_states_iff hc).mp (hchecks f (List.mem_filter.mpr ⟨hf, hc⟩)) hl
    rw [hx] at he
    cases he
  | unknown hf hi hc hl => exact hl (h.prose _ hf hi hc)

theorem Section.exists_gives_iff (s : Section) : (∃ x, s.Gives x) ↔ ¬ s.Faulty := by
  refine ⟨fun ⟨x, hx⟩ => hx.not_faulty, fun h => ?_⟩
  have hread {f : Fence} (hbad : ∀ e, Datum.parse f.trimmed ≠ .error e) : ∃ x, Datum.parse f.trimmed = .ok x := by
    cases hx : Datum.parse f.trimmed with
    | ok x => exact ⟨x, rfl⟩
    | error e => exact absurd hx (hbad e)
  obtain ⟨f, hf⟩ : ∃ f, (fences s.body).filter isInput = [f] := by
    by_contra hne
    exact h (.inputs fun hlen => hne (List.length_eq_one_iff.mp hlen))
  obtain ⟨hmem, hi⟩ := List.mem_filter.mp (hf ▸ List.mem_singleton_self f)
  obtain ⟨x, hx⟩ := hread fun e he => h (.badInput hmem hi he)
  obtain ⟨cs, hcs⟩ : ∃ cs, List.Forall₂ States ((fences s.body).filter isCheck) cs := by
    refine exists_forall₂_iff.mpr fun g hg => ?_
    obtain ⟨hg, hc⟩ := List.mem_filter.mp hg
    exact (exists_states_iff hc).mpr fun hl => hread fun e he => h (.badLocals hg hl he)
  refine ⟨⟨s.name, f.trimmed, x, cs⟩, rfl, ⟨f, hf, rfl, hx⟩, hcs, ?_, fun g hg hi hc => ?_⟩
  · rintro rfl
    exact h (.noCheck (List.forall₂_nil_right_iff.mp hcs))
  · by_contra hl
    exact h (.unknown hg hi hc hl)

end

/-- A document divides into prose and sections in one way. It gives a scenario for each section, in their order, if no
fence of the prose has a language and the sections give scenarios; it is refused if a fence of the prose has a language
or a section is faulty. -/
theorem scenarios_exact (bs : List Block) : ∃ prose sections, Divides bs prose sections ∧
    (∀ prose' sections', Divides bs prose' sections' → prose' = prose ∧ sections' = sections) ∧
    (∀ xs, collect none bs = .ok xs ↔
      (∀ f ∈ fences prose, f.language = "") ∧ List.Forall₂ Section.Gives sections xs) ∧
    ((∃ e, collect none bs = .error e) ↔ (∃ f ∈ fences prose, f.language ≠ "") ∨ ∃ s ∈ sections, s.Faulty) := by
  refine ⟨_, _, divide_divides bs, fun prose sections h => by simp [h.eq_divide], fun xs => collect_none, ?_⟩
  have hok : (∃ xs, collect none bs = .ok xs) ↔
      (∀ f ∈ fences (divide bs).1, f.language = "") ∧ ∀ s ∈ (divide bs).2, ¬ s.Faulty := by
    simp only [collect_none, exists_and_left, exists_forall₂_iff, Section.exists_gives_iff]
  have herr : (∃ e, collect none bs = .error e) ↔ ¬ ∃ xs, collect none bs = .ok xs := by
    cases collect none bs <;> simp
  rw [herr, hok, not_and_or]
  push Not
  rfl

end WhileStack.Scenario

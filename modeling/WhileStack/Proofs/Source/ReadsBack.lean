import WhileStack.Proofs.Datum.Integer
import WhileStack.Proofs.Source.Readable
import WhileStack.Proofs.Source.Unplaced

/-! Parts of programs that are written as data and read from them again, one rule for each form. -/
namespace WhileStack.Source
open WhileStack.Text
open Datum (bareAll bareEntries areWritten entriesWritten isSymbolText)

/-- A part of a program is written as a datum that a text can hold, and read from any copy of it again; only places
may differ. -/
structure ReadsBack {α : Type} (read : Datum → Decoded α) (write : α → Datum) (unplaced : α → α) (x : α) : Prop where
  written : (write x).isWritten = true
  again : ∀ {d}, d.bare = (write x).bare → ∃ y, read d = .ok y ∧ unplaced y = unplaced x

/-- The same for parts that are written as several data. -/
structure AllReadBack {α : Type} (read : List Datum → Decoded (List α)) (write : List α → List Datum)
    (unplaced : List α → List α) (xs : List α) : Prop where
  written : areWritten (write xs) = true
  again : ∀ {ds}, bareAll ds = bareAll (write xs) → ∃ ys, read ds = .ok ys ∧ unplaced ys = unplaced xs

section Copies
variable {d x : Datum} {ds xs items args : List Datum} {notes : List (String × Datum)} {s head : String} {p : Datum.Pos}

theorem bareAll_eq_nil : bareAll ds = bareAll [] ↔ ds = [] := by
  cases ds <;> simp [bareAll]

theorem bareAll_eq_cons : bareAll ds = bareAll (x :: xs) ↔
    ∃ y ys, ds = y :: ys ∧ y.bare = x.bare ∧ bareAll ys = bareAll xs := by
  cases ds <;> simp [bareAll, and_assoc]

theorem bare_eq_sym : d.bare = (sym s).bare ↔ ∃ p, d = .symbol p s := by
  cases d <;> simp [sym, Datum.bare]

theorem bare_eq_list : d.bare = (Datum.list p items notes).bare ↔
    ∃ q ds ns, d = .list q ds ns ∧ bareAll ds = bareAll items ∧ bareEntries ns = bareEntries notes := by
  cases d <;> simp [Datum.bare, and_assoc]

theorem bareEntries_eq_nil {ns : List (String × Datum)} : bareEntries ns = bareEntries [] ↔ ns = [] := by
  cases ns <;> simp [bareEntries]

theorem bare_eq_form : d.bare = (form items).bare ↔ ∃ p ds, d = .list p ds [] ∧ bareAll ds = bareAll items := by
  simp only [form, bare_eq_list, bareEntries_eq_nil]
  constructor
  · rintro ⟨q, ds, _, hd, hds, rfl⟩
    exact ⟨q, ds, hd, hds⟩
  · rintro ⟨q, ds, hd, hds⟩
    exact ⟨q, ds, [], hd, hds, rfl⟩

theorem bare_eq_headed (h : d.bare = (form (sym head :: args)).bare) :
    ∃ p q ds, d = .list p (.symbol q head :: ds) [] ∧ bareAll ds = bareAll args := by
  obtain ⟨p, _, rfl, hitems⟩ := bare_eq_form.mp h
  obtain ⟨_, ds, rfl, hhead, hds⟩ := bareAll_eq_cons.mp hitems
  obtain ⟨q, rfl⟩ := bare_eq_sym.mp hhead
  exact ⟨p, q, ds, rfl, hds⟩

@[simp] theorem isWritten_sym : (sym s).isWritten = isSymbolText s.toList := rfl

@[simp] theorem isWritten_form : (form items).isWritten = areWritten items := by
  simp [form, Datum.isWritten, Datum.entriesWritten]

end Copies

/-- A form that starts with a keyword. -/
theorem ReadsBack.headed {α : Type} {read : Datum → Decoded α} {write : α → Datum} {unplaced : α → α} {x : α}
    {head : String} {args : List Datum} (hwrite : write x = form (sym head :: args))
    (hh : isSymbolText head.toList = true) (hargs : areWritten args = true)
    (again : ∀ p q ds, bareAll ds = bareAll args →
      ∃ y, read (.list p (.symbol q head :: ds) []) = .ok y ∧ unplaced y = unplaced x) :
    ReadsBack read write unplaced x where
  written := by simp [hwrite, areWritten, hh, hargs]
  again h := by
    rw [hwrite] at h
    obtain ⟨p, q, ds, rfl, hds⟩ := bare_eq_headed h
    exact again p q ds hds

namespace AllReadBack
variable {α : Type} {read : List Datum → Decoded (List α)} {write : List α → List Datum}
  {unplaced : List α → List α} {readOne : Datum → Decoded α} {writeOne : α → Datum} {unplacedOne : α → α} {x : α}
  {xs : List α}

theorem nil (hread : read [] = .ok []) (hwrite : write [] = []) : AllReadBack read write unplaced [] where
  written := by rw [hwrite]; rfl
  again h := by
    rw [hwrite, bareAll_eq_nil] at h
    exact ⟨[], h ▸ hread, rfl⟩

theorem cons (hread : ∀ d ds, read (d :: ds) = do
      let y ← readOne d
      .ok (y :: (← read ds)))
    (hwrite : write (x :: xs) = writeOne x :: write xs)
    (hunplaced : ∀ y ys, unplaced (y :: ys) = unplacedOne y :: unplaced ys)
    (hx : ReadsBack readOne writeOne unplacedOne x) (hxs : AllReadBack read write unplaced xs) :
    AllReadBack read write unplaced (x :: xs) where
  written := by simp [hwrite, areWritten, hx.written, hxs.written]
  again h := by
    rw [hwrite] at h
    obtain ⟨d, ds, rfl, hd, hds⟩ := bareAll_eq_cons.mp h
    obtain ⟨y, hy, hyu⟩ := hx.again hd
    obtain ⟨ys, hys, hysu⟩ := hxs.again hds
    exact ⟨y :: ys, by simp [hread, hy, hys, Partial.ok_then], by rw [hunplaced, hunplaced, hyu, hysu]⟩

theorem mapM (h : ∀ x ∈ xs, ReadsBack readOne writeOne unplacedOne x) :
    AllReadBack (fun ds => ds.mapM readOne) (fun xs => xs.map writeOne) (fun xs => xs.map unplacedOne) xs := by
  induction xs with
  | nil => exact .nil rfl rfl
  | cons x xs ih =>
    rw [List.forall_mem_cons] at h
    exact .cons (fun _ _ => List.mapM_cons) rfl (fun _ _ => rfl) h.1 (ih h.2)

end AllReadBack

section Types
variable {t : Ty}

abbrev Ty.ReadsBack : Ty → Prop := Source.ReadsBack tyOf Ty.toDatum id

theorem Ty.ReadsBack.read (h : t.ReadsBack) {d : Datum} (hd : d.bare = t.toDatum.bare) : tyOf d = .ok t := by
  obtain ⟨u, hu, rfl⟩ := h.again hd
  exact hu

theorem Ty.toDatum_ofSymbol (s : String) : (Ty.ofSymbol s).toDatum = sym s := by
  unfold Ty.ofSymbol
  repeat' split
  all_goals simp_all [Ty.toDatum, Ty.text]

mutual

theorem Ty.Readable.readsBack : ∀ {t : Ty}, t.Readable → t.ReadsBack
  | _, @Ty.Readable.ofSymbol s hs => by
    refine ⟨by simp [Ty.toDatum_ofSymbol, hs], fun hd => ?_⟩
    rw [Ty.toDatum_ofSymbol] at hd
    obtain ⟨p, rfl⟩ := bare_eq_sym.mp hd
    exact ⟨_, rfl, rfl⟩
  | _, .list ht => by
    have ht := ht.readsBack
    refine .headed rfl (by decide) (by simp [areWritten, ht.written]) fun p q ds hds => ?_
    simp only [bareAll_eq_cons, bareAll_eq_nil] at hds
    obtain ⟨d, _, rfl, hd, rfl⟩ := hds
    simp [tyOf, ht.read hd, Partial.ok_then]
  | _, .record hfs => by
    have hfs := hfs.readBack
    refine .headed rfl (by decide) hfs.written fun p q ds hds => ?_
    obtain ⟨_, hr, rfl⟩ := hfs.again hds
    simp [tyOf, hr, Partial.ok_then]

theorem FieldTysReadable.readBack : ∀ {seen : List String} {fs : List (String × Ty)}, FieldTysReadable seen fs →
    AllReadBack (fieldTysOf seen) fieldTyData id fs
  | _, _, .nil => .nil rfl rfl
  | _, _, .cons hs hnew ht hfs => by
    have ht := ht.readsBack
    have hfs := hfs.readBack
    refine ⟨by simp [fieldTyData, areWritten, hs, ht.written, hfs.written], fun hds => ?_⟩
    simp only [fieldTyData, bareAll_eq_cons, bareAll_eq_nil, bare_eq_form, bare_eq_sym] at hds
    obtain ⟨_, ds, rfl, ⟨p, _, rfl, _, _, rfl, ⟨q, rfl⟩, d, _, rfl, hd, rfl⟩, hds⟩ := hds
    obtain ⟨_, hr, rfl⟩ := hfs.again hds
    simp [fieldTysOf, symbolOf, hnew, ht.read hd, hr, Partial.ok_then]

end

end Types

section Expressions

abbrev Literal.ReadsBack : Literal → Prop := Source.ReadsBack literalOf Literal.toDatum id

abbrev Expr.ReadsBack : Expr → Prop := Source.ReadsBack exprOf Expr.toDatum Expr.unplaced

theorem Literal.Readable.readsBack {v : Literal} (h : v.Readable) : v.ReadsBack := by
  cases h with
  | int hn =>
    refine ⟨by simp [Literal.toDatum, Datum.isWritten, isNumberText_repr, readInt64?_repr hn], fun {d} hd => ?_⟩
    cases d <;> simp_all [Literal.toDatum, Datum.bare, literalOf]
  | string s =>
    refine ⟨rfl, fun {d} hd => ?_⟩
    cases d <;> simp_all [Literal.toDatum, Datum.bare, literalOf]
  | bool b =>
    refine ⟨by cases b <;> rfl, fun hd => ?_⟩
    cases b <;> obtain ⟨p, rfl⟩ := bare_eq_sym.mp hd <;> simp [literalOf]

/-- An expression: a keyword, the type and the operands. -/
theorem Expr.ReadsBack.typed {e : Expr} {t : Ty} {head : String} {args : List Datum}
    (hwrite : e.toDatum = form (sym head :: t.toDatum :: args)) (hh : isSymbolText head.toList = true)
    (ht : t.Readable) (hargs : areWritten args = true)
    (again : ∀ p q d ds, tyOf d = .ok t → bareAll ds = bareAll args →
      ∃ y, exprOf (.list p (.symbol q head :: d :: ds) []) = .ok y ∧ y.unplaced = e.unplaced) : e.ReadsBack :=
  .headed hwrite hh (by simp [areWritten, ht.readsBack.written, hargs]) fun p q ds hds => by
    obtain ⟨d, ds, rfl, hd, hds⟩ := bareAll_eq_cons.mp hds
    exact again p q d ds (ht.readsBack.read hd) hds

mutual

theorem Expr.Readable.readsBack : ∀ {e : Expr}, e.Readable → e.ReadsBack
  | _, .const ht hv => by
    have hv := hv.readsBack
    refine .typed rfl (by decide) ht (by simp [areWritten, hv.written]) fun p q d ds hd hds => ?_
    simp only [bareAll_eq_cons, bareAll_eq_nil] at hds
    obtain ⟨d', _, rfl, hd', rfl⟩ := hds
    obtain ⟨_, hr, rfl⟩ := hv.again hd'
    simp [exprOf, hd, hr, Partial.ok_then, Expr.unplaced, Attr.unplaced]
  | _, .var ht hn => by
    refine .typed rfl (by decide) ht (by simp [areWritten, hn]) fun p q d ds hd hds => ?_
    simp only [bareAll_eq_cons, bareAll_eq_nil, bare_eq_sym] at hds
    obtain ⟨_, _, rfl, ⟨_, rfl⟩, rfl⟩ := hds
    simp [exprOf, symbolOf, hd, Partial.ok_then, Expr.unplaced, Attr.unplaced]
  | _, .binary ht hop hs hl hr => by
    have hl := hl.readsBack
    have hr := hr.readsBack
    refine .typed rfl (by decide) ht (by simp [areWritten, hs, hl.written, hr.written]) fun p q d ds hd hds => ?_
    simp only [bareAll_eq_cons, bareAll_eq_nil, bare_eq_sym] at hds
    obtain ⟨_, _, rfl, ⟨_, rfl⟩, dl, _, rfl, hdl, dr, _, rfl, hdr, rfl⟩ := hds
    obtain ⟨l', hl', hlu⟩ := hl.again hdl
    obtain ⟨r', hr', hru⟩ := hr.again hdr
    simp [exprOf, symbolOf, hd, hop, hl', hr', Partial.ok_then, Expr.unplaced, Attr.unplaced, hlu, hru]
  | _, .unary ht hop hs he => by
    have he := he.readsBack
    refine .typed rfl (by decide) ht (by simp [areWritten, hs, he.written]) fun p q d ds hd hds => ?_
    simp only [bareAll_eq_cons, bareAll_eq_nil, bare_eq_sym] at hds
    obtain ⟨_, _, rfl, ⟨_, rfl⟩, de, _, rfl, hde, rfl⟩ := hds
    obtain ⟨e', he', heu⟩ := he.again hde
    simp [exprOf, symbolOf, hd, hop, he', Partial.ok_then, Expr.unplaced, Attr.unplaced, heu]
  | _, .cast ht he => by
    have he := he.readsBack
    refine .typed rfl (by decide) ht (by simp [areWritten, he.written]) fun p q d ds hd hds => ?_
    simp only [bareAll_eq_cons, bareAll_eq_nil] at hds
    obtain ⟨de, _, rfl, hde, rfl⟩ := hds
    obtain ⟨e', he', heu⟩ := he.again hde
    simp [exprOf, hd, he', Partial.ok_then, Expr.unplaced, Attr.unplaced, heu]
  | _, .call ht hf hargs => by
    have hargs := hargs.readBack
    refine .typed rfl (by decide) ht (by simp [areWritten, hf, hargs.written]) fun p q d ds hd hds => ?_
    simp only [bareAll_eq_cons, bare_eq_sym] at hds
    obtain ⟨_, das, rfl, ⟨_, rfl⟩, hdas⟩ := hds
    obtain ⟨as', has', hasu⟩ := hargs.again hdas
    simp [exprOf, symbolOf, hd, has', Partial.ok_then, Expr.unplaced, Attr.unplaced, hasu]
  | _, .index ht hs hi => by
    have hs := hs.readsBack
    have hi := hi.readsBack
    refine .typed rfl (by decide) ht (by simp [areWritten, hs.written, hi.written]) fun p q d ds hd hds => ?_
    simp only [bareAll_eq_cons, bareAll_eq_nil] at hds
    obtain ⟨ds, _, rfl, hds, di, _, rfl, hdi, rfl⟩ := hds
    obtain ⟨s', hs', hsu⟩ := hs.again hds
    obtain ⟨i', hi', hiu⟩ := hi.again hdi
    simp [exprOf, hd, hs', hi', Partial.ok_then, Expr.unplaced, Attr.unplaced, hsu, hiu]
  | _, .list ht hes => by
    have hes := hes.readBack
    refine .typed rfl (by decide) ht hes.written fun p q d ds hd hds => ?_
    obtain ⟨es', hes', hesu⟩ := hes.again hds
    simp [exprOf, hd, hes', Partial.ok_then, Expr.unplaced, Attr.unplaced, hesu]
  | _, .record ht hfs => by
    have hfs := hfs.readBack
    refine .typed rfl (by decide) ht hfs.written fun p q d ds hd hds => ?_
    obtain ⟨fs', hfs', hfsu⟩ := hfs.again hds
    simp [exprOf, hd, hfs', Partial.ok_then, Expr.unplaced, Attr.unplaced, hfsu]
  | _, .field ht hs hn => by
    have hs := hs.readsBack
    refine .typed rfl (by decide) ht (by simp [areWritten, hs.written, hn]) fun p q d ds hd hds => ?_
    simp only [bareAll_eq_cons, bareAll_eq_nil, bare_eq_sym] at hds
    obtain ⟨ds, _, rfl, hds, _, _, rfl, ⟨_, rfl⟩, rfl⟩ := hds
    obtain ⟨s', hs', hsu⟩ := hs.again hds
    simp [exprOf, symbolOf, hd, hs', Partial.ok_then, Expr.unplaced, Attr.unplaced, hsu]

theorem ExprsReadable.readBack : ∀ {es : List Expr}, ExprsReadable es →
    AllReadBack exprsOf exprData Expr.unplacedAll es
  | _, .nil => .nil rfl rfl
  | _, .cons he hes => .cons (fun _ _ => rfl) rfl (fun _ _ => rfl) he.readsBack hes.readBack

theorem FieldValuesReadable.readBack : ∀ {fs : List (String × Expr)}, FieldValuesReadable fs →
    AllReadBack fieldValuesOf fieldValueData Expr.unplacedFields fs
  | _, .nil => .nil rfl rfl
  | _, .cons hn he hfs => by
    have he := he.readsBack
    have hfs := hfs.readBack
    refine ⟨by simp [fieldValueData, areWritten, hn, he.written, hfs.written], fun hds => ?_⟩
    simp only [fieldValueData, bareAll_eq_cons, bareAll_eq_nil, bare_eq_form, bare_eq_sym] at hds
    obtain ⟨_, ds, rfl, ⟨p, _, rfl, _, _, rfl, ⟨q, rfl⟩, d, _, rfl, hd, rfl⟩, hds⟩ := hds
    obtain ⟨e', he', heu⟩ := he.again hd
    obtain ⟨fs', hfs', hfsu⟩ := hfs.again hds
    simp [fieldValuesOf, symbolOf, he', hfs', Partial.ok_then, Expr.unplacedFields, heu, hfsu]

end

end Expressions

section Statements

abbrev Target.ReadsBack : Target → Prop := Source.ReadsBack targetOf (fun t => t.toExpr.toDatum) Target.unplaced

abbrev VarDecl.ReadsBack : VarDecl → Prop := Source.ReadsBack varDeclOf VarDecl.toDatum VarDecl.unplaced

abbrev Stmt.ReadsBack : Stmt → Prop := Source.ReadsBack stmtOf Stmt.toDatum Stmt.unplaced

abbrev BlockReadsBack : List Stmt → Prop :=
  Source.ReadsBack blockOf (fun body => form (sym "block" :: stmtData body)) Stmt.unplacedAll

theorem Target.ofExpr?_unplaced (e : Expr) : ofExpr? e.unplaced = (ofExpr? e).map Target.unplaced := by
  cases e <;> rfl

theorem Target.ofExpr?_toExpr (t : Target) : ofExpr? t.toExpr = some t := by
  cases t <;> rfl

theorem Target.readsBack {t : Target} (h : t.toExpr.Readable) : t.ReadsBack where
  written := h.readsBack.written
  again hd := by
    obtain ⟨e, he, heu⟩ := h.readsBack.again hd
    have htarget : (ofExpr? e).map Target.unplaced = some t.unplaced := by
      rw [← ofExpr?_unplaced, heu, ofExpr?_unplaced, ofExpr?_toExpr, Option.map_some]
    obtain ⟨t', ht, htu⟩ := Option.map_eq_some_iff.mp htarget
    exact ⟨t', by simp [targetOf, he, ht, Partial.ok_then], htu⟩

theorem VarDecl.Readable.readsBack {v : VarDecl} (h : v.Readable) : v.ReadsBack := by
  cases h with
  | @unset loc t n ht hn =>
    have hwrite : (VarDecl.mk loc t n none).toDatum = form [sym "decl", t.toDatum, sym n] := rfl
    refine .headed hwrite (by decide) (by simp [areWritten, ht.readsBack.written, hn]) fun p q ds hds => ?_
    simp only [bareAll_eq_cons, bareAll_eq_nil, bare_eq_sym] at hds
    obtain ⟨dt, _, rfl, hdt, _, _, rfl, ⟨_, rfl⟩, rfl⟩ := hds
    simp [varDeclOf, Datum.items, symbolOf, ht.readsBack.read hdt, Partial.ok_then, VarDecl.unplaced]
  | @set loc t n e ht hn he =>
    have he := he.readsBack
    have hwrite : (VarDecl.mk loc t n (some e)).toDatum = form [sym "decl", t.toDatum, sym n, e.toDatum] := rfl
    refine .headed hwrite (by decide) (by simp [areWritten, ht.readsBack.written, hn, he.written]) fun p q ds hds => ?_
    simp only [bareAll_eq_cons, bareAll_eq_nil, bare_eq_sym] at hds
    obtain ⟨dt, _, rfl, hdt, _, _, rfl, ⟨_, rfl⟩, de, _, rfl, hde, rfl⟩ := hds
    obtain ⟨e', he', heu⟩ := he.again hde
    simp [varDeclOf, Datum.items, symbolOf, ht.readsBack.read hdt, he', Partial.ok_then, VarDecl.unplaced, heu]

theorem VarDecl.bare_headed {v : VarDecl} {d : Datum} (h : d.bare = v.toDatum.bare) :
    ∃ p q ds, d = .list p (.symbol q "decl" :: ds) [] := by
  have h : d.bare = (form (sym "decl" :: _)).bare := h
  obtain ⟨p, q, ds, hd, -⟩ := bare_eq_headed h
  exact ⟨p, q, ds, hd⟩

theorem BlockReadsBack.ofStmts {body : List Stmt} (h : AllReadBack stmtsOf stmtData Stmt.unplacedAll body) :
    BlockReadsBack body :=
  .headed rfl (by decide) h.written fun p q ds hds => by
    obtain ⟨ss, hss, hssu⟩ := h.again hds
    exact ⟨ss, by simp [blockOf, hss], hssu⟩

mutual

theorem Stmt.Readable.readsBack : ∀ {s : Stmt}, s.Readable → s.ReadsBack
  | _, .decl hv => by
    refine ⟨hv.readsBack.written, fun hd => ?_⟩
    obtain ⟨v', hv', hvu⟩ := hv.readsBack.again hd
    obtain ⟨p, q, ds, rfl⟩ := VarDecl.bare_headed hd
    simp [stmtOf, hv', Partial.ok_then, Stmt.unplaced, hvu]
  | _, .assign ht he => by
    have ht := Target.readsBack ht
    have he := he.readsBack
    refine .headed rfl (by decide) (by simp [areWritten, ht.written, he.written]) fun p q ds hds => ?_
    simp only [bareAll_eq_cons, bareAll_eq_nil] at hds
    obtain ⟨dt, _, rfl, hdt, de, _, rfl, hde, rfl⟩ := hds
    obtain ⟨t', ht', htu⟩ := ht.again hdt
    obtain ⟨e', he', heu⟩ := he.again hde
    simp [stmtOf, ht', he', Partial.ok_then, Stmt.unplaced, htu, heu]
  | _, .print he => by
    have he := he.readsBack
    refine .headed rfl (by decide) (by simp [areWritten, he.written]) fun p q ds hds => ?_
    simp only [bareAll_eq_cons, bareAll_eq_nil] at hds
    obtain ⟨de, _, rfl, hde, rfl⟩ := hds
    obtain ⟨e', he', heu⟩ := he.again hde
    simp [stmtOf, he', Partial.ok_then, Stmt.unplaced, heu]
  -- An empty second branch is not written, and is what a missing one is read as.
  | _, @Stmt.Readable.ifElse loc c yes [] hc hy _ => by
    have hc := hc.readsBack
    have hy := BlockReadsBack.ofStmts hy.readBack
    have hwrite : (Stmt.ifElse loc c yes []).toDatum =
      form [sym "if", c.toDatum, form (sym "block" :: stmtData yes)] := rfl
    refine .headed hwrite (by decide) (by simp [areWritten, hc.written, hy.written]) fun p q ds hds => ?_
    simp only [bareAll_eq_cons, bareAll_eq_nil] at hds
    obtain ⟨dc, _, rfl, hdc, dy, _, rfl, hdy, rfl⟩ := hds
    obtain ⟨c', hc', hcu⟩ := hc.again hdc
    obtain ⟨y', hy', hyu⟩ := hy.again hdy
    simp [stmtOf, hc', hy', Partial.ok_then, Stmt.unplaced, hcu, hyu]
  | _, @Stmt.Readable.ifElse loc c yes (s :: no) hc hy hn => by
    have hc := hc.readsBack
    have hy := BlockReadsBack.ofStmts hy.readBack
    have hn := BlockReadsBack.ofStmts hn.readBack
    have hwrite : (Stmt.ifElse loc c yes (s :: no)).toDatum =
      form [sym "if", c.toDatum, form (sym "block" :: stmtData yes), form (sym "block" :: stmtData (s :: no))] := rfl
    refine .headed hwrite (by decide) (by simp [areWritten, hc.written, hy.written, hn.written]) fun p q ds hds => ?_
    simp only [bareAll_eq_cons, bareAll_eq_nil] at hds
    obtain ⟨dc, _, rfl, hdc, dy, _, rfl, hdy, dn, _, rfl, hdn, rfl⟩ := hds
    obtain ⟨c', hc', hcu⟩ := hc.again hdc
    obtain ⟨y', hy', hyu⟩ := hy.again hdy
    obtain ⟨n', hn', hnu⟩ := hn.again hdn
    simp [stmtOf, hc', hy', hn', Partial.ok_then, Stmt.unplaced, hcu, hyu, hnu]
  | _, .whileDo hc hb => by
    have hc := hc.readsBack
    have hb := BlockReadsBack.ofStmts hb.readBack
    refine .headed rfl (by decide) (by simp [areWritten, hc.written, hb.written]) fun p q ds hds => ?_
    simp only [bareAll_eq_cons, bareAll_eq_nil] at hds
    obtain ⟨dc, _, rfl, hdc, db, _, rfl, hdb, rfl⟩ := hds
    obtain ⟨c', hc', hcu⟩ := hc.again hdc
    obtain ⟨b', hb', hbu⟩ := hb.again hdb
    simp [stmtOf, hc', hb', Partial.ok_then, Stmt.unplaced, hcu, hbu]
  | _, .forDo hv hc hs hb => by
    have hv := hv.readsBack
    have hc := hc.readsBack
    have hs := hs.readsBack
    have hb := BlockReadsBack.ofStmts hb.readBack
    refine .headed rfl (by decide) (by simp [areWritten, hv.written, hc.written, hs.written, hb.written])
      fun p q ds hds => ?_
    simp only [bareAll_eq_cons, bareAll_eq_nil] at hds
    obtain ⟨dv, _, rfl, hdv, dc, _, rfl, hdc, ds, _, rfl, hds, db, _, rfl, hdb, rfl⟩ := hds
    obtain ⟨v', hv', hvu⟩ := hv.again hdv
    obtain ⟨c', hc', hcu⟩ := hc.again hdc
    obtain ⟨s', hs', hsu⟩ := hs.again hds
    obtain ⟨b', hb', hbu⟩ := hb.again hdb
    obtain ⟨p', q', ds', rfl⟩ := VarDecl.bare_headed hdv
    simp [stmtOf, Datum.head, hv', hc', hs', hb', Partial.ok_then, Stmt.unplaced, hvu, hcu, hsu, hbu]
  | _, .ret => by
    refine .headed rfl (by decide) rfl fun p q ds hds => ?_
    rw [bareAll_eq_nil.mp hds]
    simp [stmtOf, Stmt.unplaced]
  | _, @Stmt.Readable.retValue loc e he => by
    have he := he.readsBack
    have hwrite : (Stmt.ret loc (some e)).toDatum = form [sym "return", e.toDatum] := rfl
    refine .headed hwrite (by decide) (by simp [areWritten, he.written]) fun p q ds hds => ?_
    simp only [bareAll_eq_cons, bareAll_eq_nil] at hds
    obtain ⟨de, _, rfl, hde, rfl⟩ := hds
    obtain ⟨e', he', heu⟩ := he.again hde
    simp [stmtOf, he', Partial.ok_then, Stmt.unplaced, heu]
  | _, .expr he => by
    have he := he.readsBack
    refine .headed rfl (by decide) (by simp [areWritten, he.written]) fun p q ds hds => ?_
    simp only [bareAll_eq_cons, bareAll_eq_nil] at hds
    obtain ⟨de, _, rfl, hde, rfl⟩ := hds
    obtain ⟨e', he', heu⟩ := he.again hde
    simp [stmtOf, he', Partial.ok_then, Stmt.unplaced, heu]

theorem StmtsReadable.readBack : ∀ {body : List Stmt}, StmtsReadable body →
    AllReadBack stmtsOf stmtData Stmt.unplacedAll body
  | _, .nil => .nil rfl rfl
  | _, .cons hs hrest => .cons (fun _ _ => rfl) rfl (fun _ _ => rfl) hs.readsBack hrest.readBack

end

end Statements

section Declarations

abbrev Decl.ReadsBack : Decl → Prop := Source.ReadsBack declOf Decl.toDatum Decl.unplaced

private theorem param_readsBack {param : String × Ty} (hs : isSymbolText param.1.toList = true)
    (ht : param.2.Readable) : ReadsBack paramOf (fun param => form [sym param.1, param.2.toDatum]) id param where
  written := by simp [areWritten, hs, ht.readsBack.written]
  again hd := by
    simp only [bare_eq_form, bareAll_eq_cons, bareAll_eq_nil, bare_eq_sym] at hd
    obtain ⟨p, _, rfl, _, _, rfl, ⟨q, rfl⟩, d, _, rfl, hd, rfl⟩ := hd
    simp [paramOf, symbolOf, ht.readsBack.read hd, Partial.ok_then]

/-- The note of an entry point is read as it is written. -/
private theorem entryNote_again {notes : List (String × Datum)} {isEntry : Bool}
    (h : bareEntries notes = bareEntries (if isEntry then [("entry", sym "true")] else [])) :
    ((notes.lookup "entry").bind Datum.symbol? == some "true") = isEntry := by
  cases isEntry with
  | false =>
    rw [bareEntries_eq_nil.mp h]
    rfl
  | true =>
    cases notes with
    | nil => cases h
    | cons note notes =>
      obtain ⟨k, d⟩ := note
      simp only [if_true, bareEntries, List.cons.injEq, Prod.mk.injEq] at h
      obtain ⟨p, rfl⟩ := bare_eq_sym.mp h.1.2
      simp [h.1.1, Datum.symbol?]

theorem Decl.Readable.readsBack {d : Decl} (h : d.Readable) : d.ReadsBack := by
  cases h with
  | type hn ht =>
    refine .headed rfl (by decide) (by simp [areWritten, hn, ht.readsBack.written]) fun p q ds hds => ?_
    simp only [bareAll_eq_cons, bareAll_eq_nil, bare_eq_sym] at hds
    obtain ⟨_, _, rfl, ⟨_, rfl⟩, dt, _, rfl, hdt, rfl⟩ := hds
    simp [declOf, Datum.head, Datum.items, symbolOf, ht.readsBack.read hdt, Partial.ok_then, Decl.unplaced]
  | @fn loc n params ret body isEntry hn hparams hret hbody =>
    have hparams := AllReadBack.mapM fun p hp => param_readsBack (hparams p hp).1 (hparams p hp).2
    have hret := hret.readsBack
    have hbody := hbody.readBack
    constructor
    · have hfun : isSymbolText "fun".toList = true := by decide
      have hnotes : ∀ isEntry : Bool,
          entriesWritten (if isEntry then [("entry", sym "true")] else []) = true ∧
          ((if isEntry then [("entry", sym "true")] else []).map Prod.fst).Nodup := by decide
      simp only [Decl.toDatum, Datum.isWritten, areWritten, isWritten_sym, isWritten_form, hfun, hn, hret.written,
        hparams.written, hbody.written, hnotes isEntry, Bool.true_and, decide_true]
    · intro d hd
      obtain ⟨p, _, notes, rfl, hds, hnotes⟩ := bare_eq_list.mp hd
      simp only [bareAll_eq_cons, bare_eq_sym, bare_eq_form] at hds
      obtain ⟨_, _, rfl, ⟨_, rfl⟩, _, _, rfl, ⟨_, rfl⟩, dr, _, rfl, hdr, _, db, rfl, ⟨_, dps, rfl, hdps⟩, hdb⟩ := hds
      obtain ⟨ps, hps, hpsu⟩ := hparams.again hdps
      obtain ⟨b, hb, hbu⟩ := hbody.again hdb
      have hentry := entryNote_again hnotes
      simp only [List.map_id] at hpsu
      simp [declOf, Datum.head, Datum.items, Datum.note?, symbolOf, paramsOf, hret.read hdr, hps, hb, hentry,
        Partial.ok_then, Decl.unplaced, hpsu, hbu]

/-- A program is read here without an entry point being chosen. -/
theorem Program.readsBack {p : Program} (h : ∀ d ∈ p.decls, d.Readable) :
    ReadsBack (Program.ofDatum "") Program.toDatum Program.unplaced p := by
  have hdecls := AllReadBack.mapM fun d hd => (h d hd).readsBack
  refine .headed rfl (by decide) hdecls.written fun p q ds hds => ?_
  obtain ⟨decls', hr, hu⟩ := hdecls.again hds
  simp [Program.ofDatum, Datum.head, Datum.items, hr, Partial.ok_then, Program.withEntry, Program.unplaced, hu]

end Declarations

end WhileStack.Source

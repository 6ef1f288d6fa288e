import WhileStack.Proofs.Exec
import WhileStack.Proofs.Lower.Layout
import WhileStack.Proofs.Source.References

/-! Layouts are those of expansions: a type has one just where its names can be followed to the end and void is not held
in a value. -/
namespace WhileStack.Lower
open Source (Ty Aliases Expands ExpandsFields)
open Relation (TransGen)

mutual

/-- A type without names and the machine type that is built alike. -/
inductive Translates : Ty → Machine.Ty → Prop
  | void : Translates .void .void
  | bool : Translates .bool .boolean
  | int : Translates .int .int
  | string : Translates .string .string
  | list {t m} (h : Translates t m) : Translates (.list t) (.list m)
  | record {fs ms} (h : TranslatesFields fs ms) : Translates (.record fs) (.record ms)

inductive TranslatesFields : List (String × Ty) → List (String × Machine.Ty) → Prop
  | nil : TranslatesFields [] []
  | cons {n t m fs ms} (h : Translates t m) (hs : TranslatesFields fs ms) :
    TranslatesFields ((n, t) :: fs) ((n, m) :: ms)

end

private theorem TranslatesFields.findField {fs : List (String × Ty)} {ms : List (String × Machine.Ty)}
    (h : TranslatesFields fs ms) {name : String} {i k : Nat} {m : Machine.Ty}
    (hf : Machine.Ty.findField name i ms = some (k, m)) :
    ∃ j, k = i + j ∧ fs.findIdx? (fun f => f.1 = name) = some j ∧ ∃ t, fs[j]? = some (name, t) ∧ Translates t m := by
  induction fs generalizing ms i with
  | nil =>
    cases h
    cases hf
  | cons f fs ih =>
    cases h with
    | @cons n t m' _ ms h hs =>
      simp only [Machine.Ty.findField] at hf
      by_cases hn : n = name
      · rw [if_pos hn] at hf
        cases hf
        exact ⟨0, rfl, by simp [List.findIdx?_cons, hn], t, by simp [hn], h⟩
      · rw [if_neg hn] at hf
        obtain ⟨j, rfl, hj, ht⟩ := ih hs hf
        exact ⟨j + 1, by omega, by simp [List.findIdx?_cons, hn, hj], by simpa using ht⟩

/-- The offset of a field is its index among the fields that the layout is of. -/
theorem Translates.field {fs : List (String × Ty)} {ms : List (String × Machine.Ty)}
    (h : Translates (.record fs) (.record ms)) {name : String} {k : Nat} {m : Machine.Ty}
    (hf : (Machine.Ty.record ms).field? name = some (k, m)) :
    fs.findIdx? (fun f => f.1 = name) = some k ∧ ∃ t, fs[k]? = some (name, t) ∧ Translates t m := by
  cases h with
  | record h =>
    obtain ⟨j, hk, hj⟩ := h.findField hf
    rw [Nat.zero_add] at hk
    exact hk ▸ hj

mutual

/-- The recursion that computes a layout, without a bound. One set of the names that are being expanded goes through it:
a name is put in before its declaration is followed, and is taken out after that, whatever the outcome. -/
inductive Maps (aliases : Aliases) : List String → Bool → Ty → Except LayoutError Machine.Ty → List String → Prop
  | void {s} : Maps aliases s true .void (.ok .void) s
  | voidValue {s} : Maps aliases s false .void (.error ⟨.void, .voidValue⟩) s
  | bool {s a} : Maps aliases s a .bool (.ok .boolean) s
  | int {s a} : Maps aliases s a .int (.ok .int) s
  | string {s a} : Maps aliases s a .string (.ok .string) s
  | list {s a t r s'} (h : Maps aliases s false t r s') : Maps aliases s a (.list t) (r.map .list) s'
  | record {s a fs r s'} (h : MapsFields aliases s fs r s') : Maps aliases s a (.record fs) (r.map .record) s'
  | again {s a n} (hs : n ∈ s) : Maps aliases s a (.named n) (.error ⟨.named n, .recursiveAlias⟩) s
  | unknown {s a n} (hs : n ∉ s) (hn : aliases.lookup n = none) :
    Maps aliases s a (.named n) (.error ⟨.named n, .unknownName⟩) s
  | named {s a n t r s'} (hs : n ∉ s) (hn : aliases.lookup n = some t) (h : Maps aliases (n :: s) a t r s') :
    Maps aliases s a (.named n) r (s'.erase n)

inductive MapsFields (aliases : Aliases) :
    List String → List (String × Ty) → Except LayoutError (List (String × Machine.Ty)) → List String → Prop
  | nil {s} : MapsFields aliases s [] (.ok []) s
  | stop {s n t fs e s'} (h : Maps aliases s false t (.error e) s') : MapsFields aliases s ((n, t) :: fs) (.error e) s'
  | cons {s n t m fs r s' s''} (h : Maps aliases s false t (.ok m) s') (hs : MapsFields aliases s' fs r s'') :
    MapsFields aliases s ((n, t) :: fs) (r.map ((n, m) :: ·)) s''

end

/-- What the outcome for a type tells about it. -/
inductive Justified (aliases : Aliases) (allowVoid : Bool) (t : Ty) : Except LayoutError Machine.Ty → Prop
  | ok {u m} (hu : Expands aliases t u) (hm : Translates u m) (hv : u.hasVoid = true → allowVoid = true ∧ u = .void) :
    Justified aliases allowVoid t (.ok m)
  | unknown {n} (hl : aliases.Leads t n) (hn : aliases.lookup n = none) :
    Justified aliases allowVoid t (.error ⟨.named n, .unknownName⟩)
  | cycle {n} (hl : aliases.Leads t n) (hc : TransGen aliases.Refers n n) :
    Justified aliases allowVoid t (.error ⟨.named n, .recursiveAlias⟩)
  | void (hv : ∀ u, Expands aliases t u → u.hasVoid = true ∧ (allowVoid = true → u ≠ .void)) :
    Justified aliases allowVoid t (.error ⟨.void, .voidValue⟩)

section
variable {onName : String → Bool → Except LayoutError Machine.Ty} {aliases : Aliases} {a : Bool} {t u : Ty}
  {s s' : List String} {n : String}

private theorem layoutWith_list : layoutWith onName a (.list t) = (layoutWith onName false t).map .list := by
  cases h : layoutWith onName false t <;> simp [layoutWith, h, bind, Except.bind, Except.map]

private theorem layoutWith_record {fs : List (String × Ty)} :
    layoutWith onName a (.record fs) = (fieldLayouts onName fs).map .record := by
  cases h : fieldLayouts onName fs <;> simp [layoutWith, h, bind, Except.bind, Except.map]

private theorem fieldLayouts_cons {fs : List (String × Ty)} : fieldLayouts onName ((n, t) :: fs) =
    layoutWith onName false t >>= fun m => (fieldLayouts onName fs).map ((n, m) :: ·) := by
  cases h : layoutWith onName false t <;> cases hs : fieldLayouts onName fs <;>
    simp [fieldLayouts, h, hs, bind, Except.bind, Except.map]

namespace Justified
variable {r : Except LayoutError Machine.Ty}

/-- What a part tells about itself it tells about the whole, when void in the part is void in the whole. -/
private theorem whole {e : LayoutError} {b : Bool} (h : Justified aliases b t (.error e)) (hs : t.names ⊆ u.names)
    (hv : ∀ w, Expands aliases u w → ∃ v, Expands aliases t v ∧ (v.hasVoid = true → w.hasVoid = true ∧ w ≠ .void)) :
    Justified aliases a u (.error e) := by
  cases h with
  | unknown hl hn => exact .unknown (hl.mono hs) hn
  | cycle hl hc => exact .cycle (hl.mono hs) hc
  | void h =>
    refine .void fun w hw => ?_
    obtain ⟨v, hvt, hvw⟩ := hv w hw
    obtain ⟨hvoid, hne⟩ := hvw (h v hvt).1
    exact ⟨hvoid, fun _ => hne⟩

private theorem list (h : Justified aliases false t r) : Justified aliases a (.list t) (r.map .list) := by
  cases r with
  | ok m =>
    cases h with
    | ok hu hm hv => exact .ok (.list hu) (.list hm) fun hw => absurd (hv hw).1 Bool.false_ne_true
  | error e =>
    refine h.whole (List.Subset.refl _) fun w hw => ?_
    cases hw with
    | list hv => exact ⟨_, hv, fun h => ⟨h, nofun⟩⟩

private theorem fieldCons {fs : List (String × Ty)} {rs : Except LayoutError (List (String × Machine.Ty))}
    (h : Justified aliases false t r) (hs : Justified aliases a (.record fs) (rs.map .record)) :
    Justified aliases a (.record ((n, t) :: fs)) ((r >>= fun m => rs.map ((n, m) :: ·)).map .record) := by
  cases r with
  | error e =>
    refine h.whole (List.subset_append_left _ _) fun w hw => ?_
    cases hw with
    | record hw =>
      cases hw with
      | cons hv _ => exact ⟨_, hv, fun h => ⟨by simp [Ty.hasVoid, Ty.fieldsHaveVoid, h], nofun⟩⟩
  | ok m =>
    cases rs with
    | error e =>
      refine hs.whole (List.subset_append_right _ _) fun w hw => ?_
      cases hw with
      | record hw =>
        cases hw with
        | cons _ hv => exact ⟨_, .record hv, fun h => ⟨by simp_all [Ty.hasVoid, Ty.fieldsHaveVoid], nofun⟩⟩
    | ok ms =>
      cases h with
      | ok hu hm hv =>
        cases hs with
        | ok hus hms hvs =>
          cases hus with
          | record hus =>
            cases hms with
            | record hms =>
              refine .ok (.record (.cons hu hus)) (.record (.cons hm hms)) fun hw => ?_
              rcases Bool.or_eq_true_iff.mp hw with hw | hw
              · exact absurd (hv hw).1 Bool.false_ne_true
              · exact absurd (hvs hw).2 nofun

private theorem named (hn : aliases.lookup n = some t) (h : Justified aliases a t r) :
    Justified aliases a (.named n) r := by
  cases h with
  | ok hu hm hv => exact .ok (.named hn hu) hm hv
  | unknown hl hk => exact .unknown (hl.named hn) hk
  | cycle hl hc => exact .cycle (hl.named hn) hc
  | void h =>
    refine .void fun w hw => ?_
    cases hw with
    | named hn' hw =>
      cases hn.symm.trans hn'
      exact h w hw

end Justified

mutual

/-- Where the outcome for each name is justified, so is that for a type. -/
private theorem layoutWith_justified : ∀ (t : Ty) {a}, (∀ n ∈ t.names, ∀ b, Justified aliases b (.named n) (onName n b)) →
    Justified aliases a t (layoutWith onName a t)
  | .void, a, _ => by
    cases a with
    | true => exact .ok .void .void fun _ => ⟨rfl, rfl⟩
    | false =>
      refine .void fun u hu => ?_
      cases hu with
      | void => exact ⟨rfl, nofun⟩
  | .bool, _, _ => .ok .bool .bool nofun
  | .int, _, _ => .ok .int .int nofun
  | .string, _, _ => .ok .string .string nofun
  | .named n, a, h => h n (by simp [Ty.names]) a
  | .list t, _, h => layoutWith_list ▸ (layoutWith_justified t h).list
  | .record fs, _, h => layoutWith_record ▸ fieldLayouts_justified fs h

private theorem fieldLayouts_justified :
    ∀ (fs : List (String × Ty)) {a}, (∀ n ∈ Ty.fieldTypeNames fs, ∀ b, Justified aliases b (.named n) (onName n b)) →
      Justified aliases a (.record fs) ((fieldLayouts onName fs).map .record)
  | [], _, _ => .ok (.record .nil) (.record .nil) nofun
  | (_, t) :: fs, _, h => fieldLayouts_cons ▸
    (layoutWith_justified t fun n hn => h n (List.mem_append_left _ hn)).fieldCons
      (fieldLayouts_justified fs fun n hn => h n (List.mem_append_right _ hn))

end

/-- The names that are being expanded are different declared names, and there is room for all that are not. -/
private structure Expanding (aliases : Aliases) (left : Nat) (s : List String) : Prop where
  nodup : s.Nodup
  declared : s ⊆ aliases.map Prod.fst
  room : aliases.length ≤ left + s.length

namespace Expanding
variable {left : Nat}

private theorem start : Expanding aliases aliases.length [] := ⟨List.nodup_nil, List.nil_subset _, Nat.le_refl _⟩

private theorem push (h : Expanding aliases left s) (hs : n ∉ s) (hn : aliases.lookup n = some t) :
    (n :: s).Nodup ∧ n :: s ⊆ aliases.map Prod.fst := by
  obtain ⟨l, r, hlr, -⟩ := List.lookup_eq_some_iff.mp hn
  exact ⟨List.nodup_cons.mpr ⟨hs, h.nodup⟩, List.cons_subset.mpr ⟨by simp [hlr], h.declared⟩⟩

/-- A declared name that is not among them finds room. -/
private theorem pos (h : Expanding aliases left s) (hs : n ∉ s) (hn : aliases.lookup n = some t) : left ≠ 0 := by
  obtain ⟨hnodup, hdeclared⟩ := h.push hs hn
  have hle := (hnodup.subperm hdeclared).length_le
  have hroom := h.room
  simp only [List.length_cons, List.length_map] at hle
  omega

private theorem next (h : Expanding aliases (left + 1) s) (hs : n ∉ s) (hn : aliases.lookup n = some t) :
    Expanding aliases left (n :: s) where
  nodup := (h.push hs hn).1
  declared := (h.push hs hn).2
  room := by
    have hroom := h.room
    simp only [List.length_cons]
    omega

end Expanding

/-- The cases of a name, where the bound is never met. -/
private theorem nameLayout_cases {left : Nat} (h : Expanding aliases left s) :
    (n ∈ s ∧ nameLayout aliases left s n a = .error ⟨.named n, .recursiveAlias⟩) ∨
    (n ∉ s ∧ aliases.lookup n = none ∧ nameLayout aliases left s n a = .error ⟨.named n, .unknownName⟩) ∨
    ∃ k t, left = k + 1 ∧ n ∉ s ∧ aliases.lookup n = some t ∧ Expanding aliases k (n :: s) ∧
      nameLayout aliases left s n a = layoutWith (nameLayout aliases k (n :: s)) a t := by
  by_cases hs : n ∈ s
  · exact .inl ⟨hs, by unfold nameLayout; rw [if_pos hs]⟩
  · cases hn : aliases.lookup n with
    | none => exact .inr (.inl ⟨hs, rfl, by unfold nameLayout; simp [if_neg hs, hn]⟩)
    | some t =>
      obtain ⟨k, rfl⟩ := Nat.exists_eq_succ_of_ne_zero (h.pos hs hn)
      refine .inr (.inr ⟨k, t, rfl, hs, rfl, h.next hs hn, ?_⟩)
      conv => lhs; unfold nameLayout
      simp only [if_neg hs, hn]

/-- Names that are being expanded lead to the one that is met, so meeting one of them again is a cycle. -/
private theorem nameLayout_justified {left : Nat} (h : Expanding aliases left s)
    (hr : ∀ k ∈ s, TransGen aliases.Refers k n) : Justified aliases a (.named n) (nameLayout aliases left s n a) := by
  induction left generalizing s n a with
  | zero =>
    rcases nameLayout_cases (n := n) (a := a) h with ⟨hs, he⟩ | ⟨-, hn, he⟩ | ⟨k, t, hk, -⟩
    · exact he ▸ .cycle (Aliases.leads_of_mem (by simp [Ty.names])) (hr n hs)
    · exact he ▸ .unknown (Aliases.leads_of_mem (by simp [Ty.names])) hn
    · omega
  | succ left ih =>
    rcases nameLayout_cases (n := n) (a := a) h with ⟨hs, he⟩ | ⟨-, hn, he⟩ | ⟨k, t, hk, -, hn, hnext, he⟩
    · exact he ▸ .cycle (Aliases.leads_of_mem (by simp [Ty.names])) (hr n hs)
    · exact he ▸ .unknown (Aliases.leads_of_mem (by simp [Ty.names])) hn
    · cases hk
      -- Whatever is being expanded leads to the names of the declaration too, through the name itself.
      refine he ▸ (layoutWith_justified t fun m hm b => ih hnext ?_).named hn
      have hnm : aliases.Refers n m := ⟨t, hn, hm⟩
      rintro k (_ | ⟨_, hk⟩)
      · exact .single hnm
      · exact (hr k hk).tail hnm

mutual

private theorem Maps.unique : ∀ {s a t r s' r' s''}, Maps aliases s a t r s' → Maps aliases s a t r' s'' →
    r = r' ∧ s' = s''
  | _, _, _, _, _, _, _, .void, .void => ⟨rfl, rfl⟩
  | _, _, _, _, _, _, _, .voidValue, .voidValue => ⟨rfl, rfl⟩
  | _, _, _, _, _, _, _, .bool, .bool => ⟨rfl, rfl⟩
  | _, _, _, _, _, _, _, .int, .int => ⟨rfl, rfl⟩
  | _, _, _, _, _, _, _, .string, .string => ⟨rfl, rfl⟩
  | _, _, _, _, _, _, _, .list h, .list h' => by
    obtain ⟨rfl, rfl⟩ := h.unique h'
    exact ⟨rfl, rfl⟩
  | _, _, _, _, _, _, _, .record h, .record h' => by
    obtain ⟨rfl, rfl⟩ := h.unique h'
    exact ⟨rfl, rfl⟩
  | _, _, _, _, _, _, _, .again _, .again _ => ⟨rfl, rfl⟩
  | _, _, _, _, _, _, _, .again hs, .unknown hs' _ => absurd hs hs'
  | _, _, _, _, _, _, _, .again hs, .named hs' _ _ => absurd hs hs'
  | _, _, _, _, _, _, _, .unknown hs _, .again hs' => absurd hs' hs
  | _, _, _, _, _, _, _, .unknown _ _, .unknown _ _ => ⟨rfl, rfl⟩
  | _, _, _, _, _, _, _, .unknown _ hn, .named _ hn' _ => nomatch hn.symm.trans hn'
  | _, _, _, _, _, _, _, .named hs _ _, .again hs' => absurd hs' hs
  | _, _, _, _, _, _, _, .named _ hn _, .unknown _ hn' => nomatch hn.symm.trans hn'
  | _, _, _, _, _, _, _, .named _ hn h, .named _ hn' h' => by
    cases hn.symm.trans hn'
    obtain ⟨rfl, rfl⟩ := h.unique h'
    exact ⟨rfl, rfl⟩

private theorem MapsFields.unique : ∀ {s fs r s' r' s''}, MapsFields aliases s fs r s' → MapsFields aliases s fs r' s'' →
    r = r' ∧ s' = s''
  | _, _, _, _, _, _, .nil, .nil => ⟨rfl, rfl⟩
  | _, _, _, _, _, _, .stop h, .stop h' => by
    obtain ⟨he, rfl⟩ := h.unique h'
    exact ⟨congrArg _ (Except.error.inj he), rfl⟩
  | _, _, _, _, _, _, .stop h, .cons h' _ => nomatch (h.unique h').1
  | _, _, _, _, _, _, .cons h _, .stop h' => nomatch (h.unique h').1
  | _, _, _, _, _, _, .cons h hs, .cons h' hs' => by
    obtain ⟨hm, rfl⟩ := h.unique h'
    cases hm
    obtain ⟨rfl, rfl⟩ := hs.unique hs'
    exact ⟨rfl, rfl⟩

end

mutual

/-- Where the recursion gives the outcome for each name and leaves the set as it is, it does so for a type. -/
private theorem maps_layoutWith (h : ∀ n b, Maps aliases s b (.named n) (onName n b) s) :
    ∀ (t : Ty) {a}, Maps aliases s a t (layoutWith onName a t) s
  | .void, true => .void
  | .void, false => .voidValue
  | .bool, _ => .bool
  | .int, _ => .int
  | .string, _ => .string
  | .named n, a => h n a
  | .list t, _ => layoutWith_list ▸ .list (maps_layoutWith h t)
  | .record fs, _ => layoutWith_record ▸ .record (maps_fieldLayouts h fs)

private theorem maps_fieldLayouts (h : ∀ n b, Maps aliases s b (.named n) (onName n b) s) :
    ∀ fs : List (String × Ty), MapsFields aliases s fs (fieldLayouts onName fs) s
  | [] => .nil
  | (n, t) :: fs => by
    have ht := maps_layoutWith h t (a := false)
    rw [fieldLayouts_cons]
    cases hl : layoutWith onName false t with
    | error e => exact .stop (hl ▸ ht)
    | ok m => exact .cons (hl ▸ ht) (maps_fieldLayouts h fs)

end

/-- The bound is never met, and the set is restored. -/
private theorem maps_nameLayout {left : Nat} (h : Expanding aliases left s) :
    Maps aliases s a (.named n) (nameLayout aliases left s n a) s := by
  induction left generalizing s n a with
  | zero =>
    rcases nameLayout_cases (n := n) (a := a) h with ⟨hs, he⟩ | ⟨hs, hn, he⟩ | ⟨k, t, hk, -⟩
    · exact he ▸ .again hs
    · exact he ▸ .unknown hs hn
    · omega
  | succ left ih =>
    rcases nameLayout_cases (n := n) (a := a) h with ⟨hs, he⟩ | ⟨hs, hn, he⟩ | ⟨k, t, hk, hs, hn, hnext, he⟩
    · exact he ▸ .again hs
    · exact he ▸ .unknown hs hn
    · cases hk
      -- The set that comes back is the one with the name put in, so taking it out restores the first one.
      have hrest := Maps.named hs hn (maps_layoutWith (a := a) (fun _ _ => ih hnext) t)
      rw [List.erase_cons_head] at hrest
      exact he ▸ hrest

theorem layout_justified : Justified aliases true t (layout aliases t) :=
  layoutWith_justified t fun _ _ _ => nameLayout_justified .start (fun _ hk => absurd hk List.not_mem_nil)

theorem valueLayout_justified : Justified aliases false t (valueLayout aliases t) :=
  layoutWith_justified t fun _ _ _ => nameLayout_justified .start (fun _ hk => absurd hk List.not_mem_nil)

private theorem fieldLayouts_same {names : List String} {m : Machine.Ty} (h : layoutWith onName false t = .ok m) :
    fieldLayouts onName (names.map fun n => (n, t)) = .ok (names.map fun n => (n, m)) := by
  induction names with
  | nil => rfl
  | cons n names ih =>
    rw [List.map_cons, fieldLayouts_cons, h, ih]
    rfl

private theorem Justified.expansion {m : Machine.Ty} (h : Justified aliases a t (.ok m)) :
    ∃ u, (∀ v, Expands aliases t v ↔ v = u) ∧ Translates u m ∧ (u.hasVoid = true → a = true ∧ u = .void) := by
  cases h with
  | @ok u _ hu hm hv => exact ⟨u, fun v => ⟨fun h => h.unique hu, fun h => h ▸ hu⟩, hm, hv⟩

/-- Without an undeclared name or a cycle, void in a value is all that an error can be about. -/
private theorem Justified.void_of_error {e : LayoutError} (h : Justified aliases a t (.error e))
    (ht : aliases.Expandable t) :
    ∃ u, Expands aliases t u ∧ u.hasVoid = true ∧ (a = true → u ≠ .void) := by
  cases h with
  | unknown hl hn => exact absurd (ht.declared _ hl) (by simp [hn])
  | cycle hl hc => exact absurd hc (ht.acyclic _ hl)
  | void h =>
    obtain ⟨u, hu⟩ := ht.exists_expands
    exact ⟨u, hu, h u hu⟩

private theorem layout_eq_ok_iff : (∃ m, layout aliases t = .ok m) ↔
    aliases.Expandable t ∧ ∀ u, Expands aliases t u → u.hasVoid = true → u = .void := by
  constructor
  · rintro ⟨m, hm⟩
    obtain ⟨u, hu, -, hv⟩ := (hm ▸ layout_justified : Justified aliases true t (.ok m)).expansion
    refine ⟨((hu u).mpr rfl).expandable, fun v hv' hvoid => ?_⟩
    cases (hu v).mp hv'
    exact (hv hvoid).2
  · rintro ⟨ht, hv⟩
    cases hm : layout aliases t with
    | ok m => exact ⟨m, rfl⟩
    | error e =>
      obtain ⟨u, hu, hvoid, hne⟩ := (hm ▸ layout_justified : Justified aliases true t (.error e)).void_of_error ht
      exact absurd (hv u hu hvoid) (hne rfl)

private theorem valueLayout_eq_ok_iff :
    (∃ m, valueLayout aliases t = .ok m) ↔ (∃ m, layout aliases t = .ok m) ∧ ¬ Expands aliases t .void := by
  constructor
  · rintro ⟨m, hm⟩
    obtain ⟨u, hu, -, hv⟩ := (hm ▸ valueLayout_justified : Justified aliases false t (.ok m)).expansion
    refine ⟨⟨m, layout_of_valueLayout hm⟩, fun h => ?_⟩
    cases (hu _).mp h
    exact absurd (hv rfl).1 Bool.false_ne_true
  · rintro ⟨hok, hnv⟩
    obtain ⟨ht, hv⟩ := layout_eq_ok_iff.mp hok
    cases hm : valueLayout aliases t with
    | ok m => exact ⟨m, rfl⟩
    | error e =>
      obtain ⟨u, hu, hvoid, -⟩ := (hm ▸ valueLayout_justified : Justified aliases false t (.error e)).void_of_error ht
      exact absurd (hv u hu hvoid ▸ hu) hnv

private theorem Justified.cycle_of_recursive {e : LayoutError} (h : Justified aliases a t (.error e))
    (he : e.cause = .recursiveAlias) :
    ∃ n, e.ty = .named n ∧ aliases.Leads t n ∧ TransGen aliases.Refers n n := by
  cases h with
  | cycle hl hc => exact ⟨_, rfl, hl, hc⟩
  | unknown => cases he
  | void => cases he

end

/-- The recursion ends on every table of declarations and every type, with one outcome and an empty set. A type has a
layout just where its names are declared, none leads back to itself, and its expansion holds void nowhere or is void;
it has that of a value just where its expansion is not void either. The layout is built like the expansion, and the
offset of a field is its index. A cycle is reported for a name on it, and never because a type is used again. -/
theorem layout_exact (aliases : Aliases) (t : Ty) :
    (∀ a r s, Maps aliases [] a t r s ↔ r = (if a then layout aliases t else valueLayout aliases t) ∧ s = []) ∧
    ((∃ m, layout aliases t = .ok m) ↔
      aliases.Expandable t ∧ ∀ u, Expands aliases t u → u.hasVoid = true → u = .void) ∧
    ((∃ m, valueLayout aliases t = .ok m) ↔ (∃ m, layout aliases t = .ok m) ∧ ¬ Expands aliases t .void) ∧
    (∀ m, layout aliases t = .ok m ∨ valueLayout aliases t = .ok m →
      ∃ u, (∀ v, Expands aliases t v ↔ v = u) ∧ Translates u m) ∧
    (∀ fs ms, Translates (.record fs) (.record ms) → ∀ name k f, (Machine.Ty.record ms).field? name = some (k, f) →
      fs.findIdx? (fun g => g.1 = name) = some k ∧ ∃ w, fs[k]? = some (name, w) ∧ Translates w f) ∧
    (∀ e, layout aliases t = .error e ∨ valueLayout aliases t = .error e → e.cause = .recursiveAlias →
      ∃ n, e.ty = .named n ∧ aliases.Leads t n ∧ TransGen aliases.Refers n n) ∧
    ∀ m, valueLayout aliases t = .ok m → ∀ names : List String,
      valueLayout aliases (.record (names.map fun n => (n, t))) = .ok (.record (names.map fun n => (n, m))) := by
  refine ⟨fun a r s => ?_, layout_eq_ok_iff, valueLayout_eq_ok_iff, fun m hm => ?_,
    fun fs ms h name k f hf => h.field hf, fun e he hc => ?_, fun m hm names => ?_⟩
  · have hrun : Maps aliases [] a t (if a then layout aliases t else valueLayout aliases t) [] := by
      cases a <;> exact maps_layoutWith (fun _ _ => maps_nameLayout .start) t
    constructor
    · exact fun h => h.unique hrun
    · rintro ⟨rfl, rfl⟩
      exact hrun
  · have h : Justified aliases true t (.ok m) := by
      have hok : layout aliases t = .ok m := hm.elim id layout_of_valueLayout
      exact hok ▸ layout_justified
    obtain ⟨u, hu, hum, -⟩ := h.expansion
    exact ⟨u, hu, hum⟩
  · rcases he with he | he
    · exact (he ▸ layout_justified : Justified aliases true t (.error e)).cycle_of_recursive hc
    · exact (he ▸ valueLayout_justified : Justified aliases false t (.error e)).cycle_of_recursive hc
  · show layoutWith _ false (.record _) = _
    rw [layoutWith_record, fieldLayouts_same hm]
    rfl

/-- Two fields of one name's type, and a name that leads to itself through a record. -/
example :
    valueLayout [("tags", .list .string)] (.record [("a", .named "tags"), ("b", .named "tags")]) =
      .ok (.record [("a", .list .string), ("b", .list .string)]) ∧
    layout [("loop", .named "ring"), ("ring", .record [("next", .named "loop")])] (.list (.named "loop")) =
      .error ⟨.named "loop", .recursiveAlias⟩ := by decide

end WhileStack.Lower

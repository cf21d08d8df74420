import Interpose.Proofs.Code.Tables
import Interpose.Proofs.Weave.Shape
import Interpose.Weave.Weaver
/-!
# Woven methods

What weaving makes of the methods of a class, one after the other, while the pool grows (`Became`): a
method that is due gets new code and lists one listener more, and every other method stays as it is.

Results:
* `Member.wovenListeners_withListeners`: the listeners that were written are found again.
* `Weaver.methods_became`: a successful run over the methods.
* `Weaver.methods_kept`: a run over methods none of which is due.
* `Weaver.methods_fails`: a method that fails ends the run with its fault.
-/

namespace Interpose

/-! ## Methods with other code and other listeners -/

theorem findSome?_filter_of_none {α β : Type} {f : α → Option β} {keep : α → Bool}
    (h : ∀ a, keep a = false → f a = none) (as : List α) :
    (as.filter keep).findSome? f = as.findSome? f := by
  induction as with
  | nil => rfl
  | cons a as ih =>
    rw [List.filter_cons, List.findSome?_cons]
    split
    case isTrue => rw [List.findSome?_cons, ih]
    case isFalse hdrop => rw [h a (by simpa using hdrop), ih]

namespace Member

variable {m : Member} {new : CodeAttribute} {ids : List Int32}

theorem mem_replaceFirst {as : List Attribute} {a : Attribute}
    (h : a ∈ withCode.replaceFirst new as) : a = .code new ∨ a ∈ as := by
  induction as with
  | nil => cases h
  | cons b as ih =>
    cases b with
    | code body =>
      rcases List.mem_cons.1 h with rfl | h
      · exact .inl rfl
      · exact .inr (List.mem_cons_of_mem _ h)
    | _ =>
      rcases List.mem_cons.1 h with rfl | h
      · exact .inr (List.mem_cons_self ..)
      · exact (ih h).imp_right (List.mem_cons_of_mem _)

/-- The attributes of a woven method are those it had, its new code and its listeners. -/
theorem mem_rewritten {a : Attribute} (h : a ∈ (withListeners (m.withCode new) ids).attributes) :
    a ∈ m.attributes ∨ a = .code new ∨
      a = .unknown Listeners.attributeName (Listeners.encode ids) := by
  rcases List.mem_append.1 h with h | h
  · rcases mem_replaceFirst (List.mem_filter.1 h).1 with h | h
    · exact .inr (.inl h)
    · exact .inl h
  · exact .inr (.inr (List.mem_singleton.1 h))

theorem code?_withCode : (m.withCode new).code? = m.code?.map fun _ => new := by
  change (withCode.replaceFirst new m.attributes).findSome? Attribute.code? = _
  unfold code?
  induction m.attributes with
  | nil => rfl
  | cons a as ih =>
    cases a with
    | code body => rfl
    | _ => exact ih

theorem code?_withListeners : (withListeners m ids).code? = m.code? := by
  change ((m.attributes.filter fun a : Attribute => (a.raw? _).isNone) ++ [_]).findSome? Attribute.code? = _
  have hlast : [Attribute.unknown Listeners.attributeName (Listeners.encode ids)].findSome?
    Attribute.code? = none := rfl
  rw [List.findSome?_append, hlast, Option.or_none]
  refine findSome?_filter_of_none (fun a ha => ?_) m.attributes
  cases a with
  | unknown => rfl
  | _ => cases ha

theorem rawAttribute?_withListeners :
    (withListeners m ids).rawAttribute? Listeners.attributeName = some (Listeners.encode ids) := by
  change ((m.attributes.filter fun a : Attribute => (a.raw? _).isNone) ++ [_]).findSome? _ = _
  have hfirst : (m.attributes.filter fun a => (a.raw? Listeners.attributeName).isNone).findSome?
      (Attribute.raw? Listeners.attributeName) = none := by
    rw [List.findSome?_eq_none_iff]
    intro a ha
    simpa using (List.mem_filter.1 ha).2
  rw [List.findSome?_append, hfirst]
  rfl

/-- The listeners that were written are found again. -/
theorem wovenListeners_withListeners (h : ids.length < 0x10000) :
    wovenListeners (withListeners m ids) = ids := by
  rw [wovenListeners, rawAttribute?_withListeners]
  exact Listeners.decode_encode ids h

end Member

/-- The signature code of a method of a class, if the pool can tell it. -/
def Member.signCodeIn (className : String) (p : Pool) (m : Member) : Except FormatError String := do
  let name ← p.getUtf8 m.name
  let descriptor ← MethodDescriptor.ofDescriptor (← p.getUtf8 m.descriptor)
  return signCode className name (descriptor.parameters.map JavaType.javaName)

theorem Member.signCodeIn_eq_ok {className : String} {p : Pool} {m : Member} {code : String} :
    m.signCodeIn className p = .ok code ↔ ∃ name spelled descriptor, p.getUtf8 m.name = .ok name ∧
      p.getUtf8 m.descriptor = .ok spelled ∧ MethodDescriptor.ofDescriptor spelled = .ok descriptor ∧
      code = signCode className name (descriptor.parameters.map JavaType.javaName) := by
  unfold signCodeIn
  simp only [bind_eq_ok]
  constructor
  · rintro ⟨name, hname, spelled, hspelled, descriptor, hdescriptor, h⟩
    exact ⟨name, spelled, descriptor, hname, hspelled, hdescriptor, (Except.ok.inj h).symm⟩
  · rintro ⟨name, spelled, descriptor, hname, hspelled, hdescriptor, rfl⟩
    exact ⟨name, hname, spelled, hspelled, descriptor, hdescriptor, rfl⟩

theorem Member.signCodeIn_within {className : String} {p q : Pool} (hpq : p.Within q) {m : Member}
    {code : String} (h : m.signCodeIn className p = .ok code) : m.signCodeIn className q = .ok code := by
  obtain ⟨name, spelled, descriptor, hname, hspelled, hdescriptor, rfl⟩ := signCodeIn_eq_ok.1 h
  exact signCodeIn_eq_ok.2 ⟨name, spelled, descriptor, hpq.getUtf8 hname, hpq.getUtf8 hspelled,
    hdescriptor, rfl⟩

namespace Weaver

/-- A method with code whose signature code is selected and into which the listener is not yet woven. -/
structure Due (selected : List String) (listener : Int32) (m : Member) (code : String) : Prop where
  selected : code ∈ selected
  fresh : listener ∉ wovenListeners m
  hasCode : m.code?.isSome

/-- What weaving makes of a method, and the signature code it is reported with if it is woven. -/
inductive Became (className : String) (p : Pool) (selected : List String) (listener : Int32)
    (m : Member) : Member × Option String → Prop
  | kept {code : String} : m.signCodeIn className p = .ok code → ¬ Due selected listener m code →
    Became className p selected listener m (m, none)
  | woven {code : String} (new : CodeAttribute) : m.signCodeIn className p = .ok code →
    Due selected listener m code → Became className p selected listener m
      (withListeners (m.withCode new) (wovenListeners m ++ [listener]), some code)

variable {s : ClassSite} {m : Member} {p q : Pool} {r : Member × Option String}

section Became

variable {className : String} {selected : List String} {listener : Int32}

theorem Became.within (hpq : p.Within q) (h : Became className p selected listener m r) :
    Became className q selected listener m r := by
  cases h with
  | kept hcode hdue => exact .kept (Member.signCodeIn_within hpq hcode) hdue
  | woven new hcode hdue => exact .woven new (Member.signCodeIn_within hpq hcode) hdue

theorem Became.eq_of_none (h : Became className p selected listener m r) (hnone : r.2 = none) :
    r.1 = m := by
  cases h with
  | kept => rfl
  | woven => cases hnone

theorem Became.signCodeIn (h : Became className p selected listener m r) (name : String) (q : Pool) :
    r.1.signCodeIn name q = m.signCodeIn name q := by
  cases h <;> rfl

theorem Became.coded (h : Became className p selected listener m r) :
    ∃ code, m.signCodeIn className p = .ok code := by
  cases h with
  | kept hcode hdue => exact ⟨_, hcode⟩
  | woven new hcode hdue => exact ⟨_, hcode⟩

theorem Became.hasCode (h : Became className p selected listener m r) :
    r.1.code?.isSome = m.code?.isSome := by
  cases h with
  | kept => rfl
  | woven => rw [Member.code?_withListeners, Member.code?_withCode, Option.isSome_map]

end Became

/-- The code of a woven method has at most four attributes, which are tables. -/
def HasTables (r : Member × Option String) : Prop :=
  r.2.isSome → ∀ c, r.1.code? = some c →
    c.attributes.length ≤ 4 ∧ ∀ a ∈ c.attributes, Assemble.IsTable a

theorem reading_eq_ok {α : Type} {f : Pool → Except FormatError α} {a : α}
    (h : (reading f).run.run p = (.ok a, q)) : f p = .ok a ∧ q = p := by
  unfold reading at h
  rw [run_bind_eq_ok] at h
  obtain ⟨_, _, hget, h⟩ := h
  cases hget
  cases hf : f p with
  | error e =>
    rw [hf] at h
    cases h
  | ok b =>
    rw [hf] at h
    cases h
    exact ⟨rfl, rfl⟩

theorem run_reading {α : Type} {f : Pool → Except FormatError α} {a : α} (hf : f p = .ok a) :
    (reading f).run.run p = (.ok a, p) := by
  unfold reading
  rw [run_bind]
  change (MonadExcept.ofExcept ((f p).mapError .malformed) : Weaving α).run.run p = _
  rw [hf]
  rfl

/-- Weaving a method adds constants; what it is woven to has at most four attributes, which are tables. -/
theorem weaveMethod_grows {plan : WeavePlan} {context : MethodContext} {h : Hierarchy} {major : UInt16}
    {code c : CodeAttribute} (hp : p.Sound)
    (hc : (Weave.method plan context h major code).run.run p = (.ok c, q)) :
    p.Grows q ∧ c.attributes.length ≤ 4 ∧ ∀ a ∈ c.attributes, Assemble.IsTable a := by
  obtain ⟨given, entry, woven, t, -, -, hwoven, hc⟩ := Weave.method_steps hc
  obtain ⟨hgrows, -⟩ := Weave.body_grows hp hwoven
  obtain ⟨-, -, -, -, -, -, -, hq, -⟩ := assemble_eq_ok hgrows.sound hc
  exact ⟨hgrows.trans hq, assemble_tables hgrows.sound hc⟩

/-- One method: it is woven if it is due, and otherwise it and the pool stay as they are. -/
theorem method_became (hp : p.Sound) (h : (method s m).run.run p = (.ok r, q)) :
    p.Grows q ∧ (r.2 = none → q = p) ∧ Became s.className q s.selected s.plan.listener m r ∧
      HasTables r := by
  unfold method at h
  rw [run_bind_eq_ok] at h
  obtain ⟨name, p1, hname, h⟩ := h
  obtain ⟨hname, rfl⟩ := reading_eq_ok hname
  rw [run_bind_eq_ok] at h
  obtain ⟨descriptor, p2, hdescriptor, h⟩ := h
  obtain ⟨hdescriptor, rfl⟩ := reading_eq_ok hdescriptor
  obtain ⟨spelled, hspelled, hdescriptor⟩ := bind_eq_ok.1 hdescriptor
  generalize hsign : signCode s.className name (descriptor.parameters.map JavaType.javaName) = code at h
  have hcode : m.signCodeIn s.className p2 = .ok code := Member.signCodeIn_eq_ok.2
    ⟨name, spelled, descriptor, hname, hspelled, hdescriptor, hsign.symm⟩
  have unwoven (hdue : ¬ Due s.selected s.plan.listener m code)
      (h : (pure (m, none) : Weaving (Member × Option String)).run.run p2 = (.ok r, q)) :
      p2.Grows q ∧ (r.2 = none → q = p2) ∧ Became s.className q s.selected s.plan.listener m r ∧
        HasTables r := by
    cases h
    exact ⟨.refl hp, fun _ => rfl, .kept hcode hdue, nofun⟩
  dsimp only at h
  split at h
  case isTrue hskip =>
    refine unwoven (fun hdue => ?_) h
    rcases Bool.or_eq_true_iff.1 hskip with hno | hold
    · rw [List.contains_iff_mem.2 hdue.selected] at hno
      cases hno
    · exact hdue.fresh (List.contains_iff_mem.1 hold)
  case isFalse hgo =>
  split at h
  case h_1 hnone =>
    refine unwoven (fun hdue => ?_) h
    have hsome := hdue.hasCode
    rw [hnone] at hsome
    cases hsome
  case h_2 given hgiven =>
    rw [run_bind_eq_ok] at h
    obtain ⟨new, p3, hnew, h⟩ := h
    obtain ⟨hgrows, htables⟩ := weaveMethod_grows hp (adapt_eq_ok.1 hnew)
    rw [run_bind_eq_ok] at h
    obtain ⟨index, p4, hadded, h⟩ := h
    obtain ⟨hadded, -⟩ := (Pool.addUtf8_ends hgrows.sound _).of_ok (adapt_eq_ok.1 hadded)
    cases h
    have hall := hgrows.trans hadded
    have hdue : Due s.selected s.plan.listener m code := by
      rw [Bool.or_eq_true, not_or, Bool.not_eq_true, Bool.not_eq_false', List.contains_iff_mem,
        List.contains_iff_mem] at hgo
      exact ⟨hgo.1, hgo.2, by rw [hgiven]; rfl⟩
    refine ⟨hall, nofun, .woven new (Member.signCodeIn_within hall.within hcode) hdue,
      fun _ c hc => ?_⟩
    rw [Member.code?_withListeners, Member.code?_withCode, hgiven] at hc
    cases hc
    exact htables

/-- All methods of a class. -/
theorem methods_became {ms : List Member} {rs : List (Member × Option String)} (hp : p.Sound)
    (h : (methods s ms).run.run p = (.ok rs, q)) :
    p.Grows q ∧ ((∀ r ∈ rs, r.2 = none) → q = p) ∧ List.Forall₂
      (fun m r => Became s.className q s.selected s.plan.listener m r ∧ HasTables r) ms rs := by
  unfold methods at h
  induction ms generalizing p rs with
  | nil =>
    cases h
    exact ⟨.refl hp, fun _ => rfl, .nil⟩
  | cons m ms ih =>
    rw [List.mapM_cons, run_bind_eq_ok] at h
    obtain ⟨r, p1, hr, h⟩ := h
    rw [run_bind_eq_ok] at h
    obtain ⟨rs', p2, hrs, h⟩ := h
    cases h
    obtain ⟨hgrows, hsame, hbecame, htables⟩ := method_became hp hr
    obtain ⟨hgrows', hsame', hrest⟩ := ih hgrows.sound hrs
    refine ⟨hgrows.trans hgrows', fun hnone => ?_,
      .cons ⟨hbecame.within hgrows'.within, htables⟩ hrest⟩
    rw [hsame' fun r hr => hnone r (List.mem_cons_of_mem _ hr), hsame (hnone r (List.mem_cons_self ..))]

/-- A method that is not due stays as it is. -/
theorem method_kept {code : String} (hcode : m.signCodeIn s.className p = .ok code)
    (hdue : ¬ Due s.selected s.plan.listener m code) :
    (method s m).run.run p = (.ok (m, none), p) := by
  obtain ⟨name, spelled, descriptor, hname, hspelled, hdescriptor, rfl⟩ :=
    Member.signCodeIn_eq_ok.1 hcode
  unfold method
  rw [run_bind, run_reading hname]
  dsimp only
  rw [run_bind, run_reading (bind_eq_ok.2 ⟨spelled, hspelled, hdescriptor⟩)]
  dsimp only
  split
  case isTrue => rfl
  case isFalse hgo =>
  cases hgiven : m.code? with
  | none => rfl
  | some given =>
    rw [Bool.or_eq_true, not_or, Bool.not_eq_true, Bool.not_eq_false', List.contains_iff_mem,
      List.contains_iff_mem] at hgo
    exact absurd ⟨hgo.1, hgo.2, by rw [hgiven]; rfl⟩ hdue

theorem methods_kept {ms : List Member}
    (h : ∀ m ∈ ms, ∃ code, m.signCodeIn s.className p = .ok code ∧
      ¬ Due s.selected s.plan.listener m code) :
    (methods s ms).run.run p = (.ok (ms.map (·, none)), p) := by
  unfold methods
  induction ms with
  | nil => rfl
  | cons m ms ih =>
    obtain ⟨code, hcode, hdue⟩ := h m (List.mem_cons_self ..)
    rw [List.mapM_cons, run_bind, method_kept hcode hdue]
    dsimp only
    rw [run_bind, ih fun m hm => h m (List.mem_cons_of_mem _ hm)]
    rfl

/-- The fault of a method is that of the class. -/
theorem methods_fails {before after : List Member} {rs : List (Member × Option String)} {t : Pool}
    {e : TransformError} (hbefore : (methods s before).run.run p = (.ok rs, q))
    (hm : (method s m).run.run q = (.error e, t)) :
    (methods s (before ++ m :: after)).run.run p = (.error e, t) := by
  unfold methods at hbefore ⊢
  rw [List.mapM_append, run_bind, hbefore]
  dsimp only
  rw [List.mapM_cons, run_bind, run_bind, hm]

end Weaver

end Interpose

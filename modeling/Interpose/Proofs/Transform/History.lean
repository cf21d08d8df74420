import Interpose.Transform.Coordinator
import Interpose.Proofs.Weave.Untouched
/-!
# Histories of a coordinator

A class passes five stages: it must not be the engine's, its structure must be told, the guard must let
it through, the matcher must choose something, and weaving must change it. A call that passes all of them
(`Coordinator.Rewrites`) answers what was woven and records it; every other call answers nothing and leaves
the coordinator as it is. None of the stages looks at what was recorded, so the record after any number of
calls is what the rewriting ones among them add up to.

Results:
* `transform_cases`: the two ways in which a call comes out.
* `codes_after`: the record after a history of calls.
* `transforms_safely`: all of it, for one more call after any history.
-/

namespace Interpose

/-! ## The record -/

theorem mem_foldl_insertName {x : String} (names sorted : List String) :
    x ∈ names.foldl (fun set n => insertName n set) sorted ↔ x ∈ sorted ∨ x ∈ names := by
  induction names generalizing sorted with
  | nil => simp
  | cons n rest ih =>
    rw [List.foldl_cons, ih, mem_insertName, List.mem_cons, or_comm (a := x = n), or_assoc]

/-- What one more record changes: the codes of one class, which gain those that are recorded. -/
structure Affected.Gains (a b : Affected) (c : LoadedClass) (codes : List String) : Prop where
  here : ∃ held, b.classes.find? c = some held ∧ ∀ x, x ∈ held ↔ x ∈ a.codes c ∨ x ∈ codes
  elsewhere : ∀ d, d ≠ c → b.classes.find? d = a.classes.find? d

theorem Affected.record_gains (a : Affected) (c : LoadedClass) (codes : List String) :
    a.Gains (a.record c codes) c codes where
  here := ⟨_, by rw [record, Table.find?_put, if_pos rfl], fun _ => mem_foldl_insertName codes _⟩
  elsewhere d hd := by rw [record, Table.find?_put, if_neg hd]

theorem Affected.Gains.mem_codes {a b : Affected} {c d : LoadedClass} {codes : List String} {x : String}
    (h : a.Gains b c codes) : x ∈ b.codes d ↔ x ∈ a.codes d ∨ (c = d ∧ x ∈ codes) := by
  by_cases hd : d = c
  · subst hd
    obtain ⟨held, hheld, hmem⟩ := h.here
    rw [Affected.codes, hheld, Option.getD_some, hmem]
    simp
  · rw [Affected.codes, h.elsewhere d hd, ← Affected.codes]
    simp [Ne.symm hd]

/-! ## One call -/

/-- The structure of a class is in the scope that loads it, whatever the host says of the class. -/
theorem Coordinator.boundary_structureOf {r : LoadRequest} {t : StructuralType}
    (h : structureOf r = .ok t) : t.boundary = r.boundary := by
  unfold structureOf at h
  split at h
  · obtain ⟨c, -, h⟩ := bind_eq_ok.1 (mapError_eq_ok.1 h)
    obtain ⟨owner, -, h⟩ := bind_eq_ok.1 h
    obtain ⟨superName, -, h⟩ := bind_eq_ok.1 h
    obtain ⟨interfaces, -, h⟩ := bind_eq_ok.1 h
    obtain ⟨behaviors, -, h⟩ := bind_eq_ok.1 h
    obtain ⟨annotations, -, h⟩ := bind_eq_ok.1 h
    cases h
    rfl
  · split at h
    · cases h
      rfl
    · cases h
    · cases h

/-- What was woven comes from the bytes that were given: some of the methods were rewritten, and these are
reported by their signature codes. -/
def Woven.ComesFrom (out : Woven) (bytes : Bytes) (selected : List String) (listener : Int32) : Prop :=
  ∃ c owner pool members, ClassFile.parse bytes = .ok c ∧ c.thisClassName = .ok owner ∧
    List.Forall₂ (Weaver.Became (toJavaName owner) pool selected listener) c.methods members ∧
    out.behaviors = members.filterMap (·.2) ∧
    (out.isModified = true →
      ({ c with pool, methods := members.map (·.1) } : ClassFile).toBytes = .ok out.bytes)

theorem Weaver.comesFrom_of_weave {w : Weaver} {loader : Int32} {bytes : Bytes} {selected : List String}
    {out : Woven} (h : w.weave loader bytes selected = .ok out) :
    out.ComesFrom bytes selected w.listener := by
  obtain ⟨c, hc⟩ : ∃ c, ClassFile.parse bytes = .ok c := by
    obtain ⟨c, hc, -⟩ := bind_eq_ok.1 h
    exact ⟨c, mapError_eq_ok.1 hc⟩
  obtain ⟨pool, members, hrewrite, hbehaviors, -, hbytes⟩ := weave_eq_ok hc h
  obtain ⟨owner, superName, howner, -, hrun⟩ := rewrite_eq_ok.1 hrewrite
  obtain ⟨-, -, hbecame⟩ := methods_became (ClassFile.pool_sound hc) hrun
  exact ⟨c, owner, pool, members, hc, howner, hbecame.imp fun _ _ h => h.1, hbehaviors, hbytes⟩

namespace Coordinator

/-- A call that passes all stages. The scope that counts is the one that loads the class. -/
structure Rewrites (c : Coordinator) (known : Option KnownSupers) (r : LoadRequest) (out : Woven) :
    Prop where
  scope : r.boundary.isEngine = false
  name : inEnginePackage (toJavaName r.className) = false
  guarded : r.boundary = .bootstrap → c.enableUnsafe = true
  chosen : ∃ t s, structureOf r = .ok t ∧ inEnginePackage t.javaName = false ∧
    c.matcher.choose t = .ok s ∧ s.behaviors ≠ [] ∧
    (c.weaver known r.boundary).weave r.boundary.objectId r.bytes s.signCodes = .ok out
  modified : out.behaviors ≠ []
  changed : out.bytes ≠ r.bytes

variable {c : Coordinator} {known : Option KnownSupers} {r : LoadRequest} {out : Woven}

theorem leavesAlone_eq_false : leavesAlone r = false ↔
    r.boundary.isEngine = false ∧ inEnginePackage (toJavaName r.className) = false := by
  rw [leavesAlone, Bool.or_eq_false_iff]

theorem refuses_eq_false {enableUnsafe : Bool} {t : StructuralType} :
    Matcher.refuses enableUnsafe t = false ↔ t.boundary.isEngine = false ∧
      inEnginePackage t.javaName = false ∧ (t.boundary = .bootstrap → enableUnsafe = true) := by
  rw [Matcher.refuses, StructuralType.isEngineType]
  cases t.boundary <;> simp [Boundary.isBootstrap, Boundary.isEngine]

/-- A guarded matcher that chooses something has let the type through. -/
theorem choose_guarded {m : Matcher} {enableUnsafe : Bool} {t : StructuralType} {s : Selection}
    (hs : s.behaviors ≠ []) : (m.guarded enableUnsafe).choose t = .ok s ↔
      Matcher.refuses enableUnsafe t = false ∧ m.choose t = .ok s := by
  rw [Matcher.choose]
  cases Matcher.refuses enableUnsafe t with
  | false => simp
  | true =>
    simp only [if_true, Bool.true_eq_false, false_and, iff_false]
    intro h
    cases h
    exact hs rfl

/-- A call rewrites the class exactly when it passes all stages. -/
theorem weave_eq_some : c.weave known r = .ok (some out) ↔ c.Rewrites known r out := by
  have matched (s : Selection) : s.isMatched = true ↔ s.behaviors ≠ [] := by
    simp [Selection.isMatched]
  have kept (w : Woven) : (w.isModified && w.bytes != r.bytes) = true ↔
      w.behaviors ≠ [] ∧ w.bytes ≠ r.bytes := by
    simp [Woven.isModified]
  unfold weave
  constructor
  · intro h
    cases halone : leavesAlone r with
    | true => simp [halone, pure, Except.pure] at h
    | false =>
      obtain ⟨hscope, hname⟩ := leavesAlone_eq_false.1 halone
      simp only [halone, Bool.false_eq_true, if_false] at h
      obtain ⟨t, ht, h⟩ := bind_eq_ok.1 h
      obtain ⟨s, hs, h⟩ := bind_eq_ok.1 h
      cases hmatched : s.isMatched with
      | false => simp [hmatched, pure, Except.pure] at h
      | true =>
        simp only [hmatched, Bool.not_true, Bool.false_eq_true, if_false] at h
        obtain ⟨w, hw, h⟩ := bind_eq_ok.1 h
        rw [matched] at hmatched
        obtain ⟨hpass, hs⟩ := (choose_guarded hmatched).1 (mapError_eq_ok.1 hs)
        obtain ⟨-, htype, hguard⟩ := refuses_eq_false.1 hpass
        rw [boundary_structureOf ht] at hguard
        split at h
        · rename_i hkept
          cases h
          obtain ⟨hmodified, hchanged⟩ := (kept out).1 hkept
          exact ⟨hscope, hname, hguard, ⟨t, s, ht, htype, hs, hmatched, hw⟩, hmodified, hchanged⟩
        · cases h
  · rintro ⟨hscope, hname, hguard, ⟨t, s, ht, htype, hs, hmatched, hw⟩, hmodified, hchanged⟩
    have hboundary := boundary_structureOf ht
    have hpass : Matcher.refuses c.enableUnsafe t = false :=
      refuses_eq_false.2 ⟨by rw [hboundary, hscope], htype, by rw [hboundary]; exact hguard⟩
    simp only [leavesAlone_eq_false.2 ⟨hscope, hname⟩, Bool.false_eq_true, if_false]
    refine bind_eq_ok.2 ⟨t, ht, bind_eq_ok.2 ⟨s, mapError_eq_ok.2
      ((choose_guarded hmatched).2 ⟨hpass, hs⟩), ?_⟩⟩
    simp only [(matched s).2 hmatched, Bool.not_true, Bool.false_eq_true, if_false]
    refine bind_eq_ok.2 ⟨out, hw, ?_⟩
    rw [if_pos ((kept out).2 ⟨hmodified, hchanged⟩)]
    rfl

/-- A call answers what was woven and records it, or it answers nothing and leaves everything as it is. -/
theorem transform_cases (c : Coordinator) (known : Option KnownSupers) (r : LoadRequest) :
    (∃ out, c.Rewrites known r out ∧ c.transform known r =
      (some out.bytes, { c with affected := c.affected.record (loadedClass r) out.behaviors })) ∨
    ((∀ out, ¬ c.Rewrites known r out) ∧ c.transform known r = (none, c)) := by
  simp only [← weave_eq_some, transform, transformClass]
  cases h : c.weave known r with
  | error e => exact .inr ⟨nofun, rfl⟩
  | ok woven =>
    cases woven with
    | none => exact .inr ⟨nofun, rfl⟩
    | some out => exact .inl ⟨out, rfl, rfl⟩

theorem Rewrites.unique {out' : Woven} (h : c.Rewrites known r out) (h' : c.Rewrites known r out') :
    out = out' := by
  rw [← weave_eq_some] at h h'
  exact Option.some.inj (Except.ok.inj (h.symm.trans h'))

theorem transform_of_rewrites (h : c.Rewrites known r out) : c.transform known r =
    (some out.bytes, { c with affected := c.affected.record (loadedClass r) out.behaviors }) := by
  obtain ⟨out', h', e⟩ | ⟨hnone, -⟩ := c.transform_cases known r
  · rw [h.unique h', e]
  · exact absurd h (hnone out)

/-! ## Histories -/

def after (c : Coordinator) (known : Option KnownSupers) (rs : List LoadRequest) : Coordinator :=
  rs.foldl (fun c r => (c.transform known r).2) c

/-- What a coordinator rewrites does not depend on what it has recorded. -/
theorem rewrites_record {a : Affected} :
    ({ c with affected := a } : Coordinator).Rewrites known r out ↔ c.Rewrites known r out :=
  ⟨fun h => ⟨h.scope, h.name, h.guarded, h.chosen, h.modified, h.changed⟩,
    fun h => ⟨h.scope, h.name, h.guarded, h.chosen, h.modified, h.changed⟩⟩

/-- Calls change the record only. -/
theorem after_eq (c : Coordinator) (known : Option KnownSupers) (rs : List LoadRequest) :
    c.after known rs = { c with affected := (c.after known rs).affected } := by
  induction rs generalizing c with
  | nil => rfl
  | cons r rs ih =>
    obtain ⟨a, hstep⟩ : ∃ a, (c.transform known r).2 = { c with affected := a } := by
      obtain ⟨out, -, e⟩ | ⟨-, e⟩ := c.transform_cases known r
      · exact ⟨_, congrArg Prod.snd e⟩
      · exact ⟨c.affected, congrArg Prod.snd e⟩
    have hafter : c.after known (r :: rs) = ({ c with affected := a } : Coordinator).after known rs := by
      change (c.transform known r).2.after known rs = _
      rw [hstep]
    rw [hafter]
    exact ih { c with affected := a }

/-- A code is recorded after a history of calls if it was before, or if one of them rewrote its method. -/
theorem codes_after (c : Coordinator) (known : Option KnownSupers) (rs : List LoadRequest)
    (k : LoadedClass) (x : String) : x ∈ (c.after known rs).affected.codes k ↔
      x ∈ c.affected.codes k ∨
        ∃ r ∈ rs, ∃ out, c.Rewrites known r out ∧ loadedClass r = k ∧ x ∈ out.behaviors := by
  induction rs generalizing c with
  | nil => simp [after]
  | cons r rs ih =>
    change x ∈ ((c.transform known r).2.after known rs).affected.codes k ↔ _
    rw [ih]
    obtain ⟨out, h, e⟩ | ⟨hnone, e⟩ := c.transform_cases known r
    · simp only [e, rewrites_record, (Affected.record_gains _ _ _).mem_codes, List.exists_mem_cons_iff]
      rw [or_assoc]
      refine or_congr_right (or_congr_left ⟨fun hx => ⟨out, h, hx⟩, ?_⟩)
      rintro ⟨out', h', hx⟩
      rwa [h.unique h']
    · simp only [e, List.exists_mem_cons_iff]
      refine or_congr_right ⟨.inr, ?_⟩
      rintro (⟨out, h, -⟩ | h)
      · exact absurd h (hnone out)
      · exact h

/-- How a coordinator answers a call. -/
structure Answers (c : Coordinator) (known : Option KnownSupers) (r : LoadRequest) : Prop where
  /-- The answer is what was woven, if the call passes all stages. -/
  some_iff : ∀ bytes, (c.transform known r).1 = some bytes ↔
    ∃ out, c.Rewrites known r out ∧ out.bytes = bytes
  /-- A class that is rewritten is recorded with the methods that were, and that is all that changes. -/
  gains : ∀ out, c.Rewrites known r out →
    (∃ selected, out.ComesFrom r.bytes selected c.listener) ∧
    (c.transform known r).2 = { c with affected := (c.transform known r).2.affected } ∧
    c.affected.Gains (c.transform known r).2.affected (loadedClass r) out.behaviors
  /-- In every other case there is no answer, and nothing changes. -/
  otherwise : (∀ out, ¬ c.Rewrites known r out) → c.transform known r = (none, c)
  /-- The engine's own classes are left alone unseen: whatever bytes, description and matcher there are,
  none of them shows, not even by a fault. -/
  unseen : r.boundary.isEngine = true ∨ inEnginePackage (toJavaName r.className) = true →
    ∀ matcher redefined bytes,
      ({ c with matcher } : Coordinator).transformClass known { r with redefined, bytes } =
        ({ result := .ok none }, { c with matcher })

theorem answers (c : Coordinator) (known : Option KnownSupers) (r : LoadRequest) :
    c.Answers known r where
  some_iff bytes := by
    obtain ⟨out, h, e⟩ | ⟨hnone, e⟩ := c.transform_cases known r
    · rw [e]
      constructor
      · intro hbytes
        exact ⟨out, h, Option.some.inj hbytes⟩
      · rintro ⟨out', h', rfl⟩
        rw [h.unique h']
    · rw [e]
      constructor
      · intro hbytes
        cases hbytes
      · rintro ⟨out, h, -⟩
        exact absurd h (hnone out)
  gains out h := by
    obtain ⟨t, s, -, -, -, -, hw⟩ := h.chosen
    refine ⟨⟨_, Weaver.comesFrom_of_weave hw⟩, ?_⟩
    rw [transform_of_rewrites h]
    exact ⟨rfl, Affected.record_gains _ _ _⟩
  otherwise hnone := by
    obtain ⟨out, h, -⟩ | ⟨-, e⟩ := c.transform_cases known r
    · exact absurd h (hnone out)
    · exact e
  unseen hengine matcher redefined bytes := by
    have halone : leavesAlone { r with redefined, bytes } = true := by
      rw [leavesAlone, Bool.or_eq_true]
      exact hengine
    simp only [transformClass, weave, halone, if_true]
    rfl

/-- After any history of calls the next one is answered safely, with the settings that the coordinator was
made with; and what is recorded is what the history has rewritten. -/
theorem transforms_safely (c : Coordinator) (known : Option KnownSupers) (rs : List LoadRequest)
    (r : LoadRequest) :
    (c.after known rs).Answers known r ∧
      (∀ out, (c.after known rs).Rewrites known r out ↔ c.Rewrites known r out) ∧
      ∀ k x, x ∈ (c.after known rs).affected.codes k ↔ x ∈ c.affected.codes k ∨
        ∃ r ∈ rs, ∃ out, c.Rewrites known r out ∧ loadedClass r = k ∧ x ∈ out.behaviors := by
  refine ⟨answers _ known r, fun out => ?_, codes_after c known rs⟩
  rw [after_eq, rewrites_record]

end Coordinator

end Interpose

import Interpose.Proofs.Code.Acceptance
import Interpose.Proofs.Code.Expansion
/-!
# What decoding refuses

Decoding answers with a body, or it reports a fault of the code (`CodeError.Reported`), except in one case
(`decode_reports_iff`): code with subroutines, otherwise well formed, in which a protected range ends
before it starts.
-/

namespace Interpose

/-- The fault is one that decoding reports. -/
def CodeError.Reported : CodeError → Prop
  | .invalidOpcode _ _ | .truncated _ | .badBranchTarget _ | .subroutine _ => True
  | _ => False

/-! ## Readers -/

namespace Cursor

variable {α β : Type} {x y : CodeReader α} {f : α → CodeReader β}

/-- Whatever fault the reader finds is reported. -/
def Reports (x : CodeReader α) : Prop :=
  ∀ c err, x c = .error err → err.Reported

theorem reports_pure {a : α} : Reports (pure a : CodeReader α) := nofun

theorem reports_bind (hx : Reports x) (hf : ∀ a, Reports (f a)) : Reports (x >>= f) := by
  intro c err h
  rcases bind_eq_error.1 h with h | ⟨⟨a, c'⟩, -, h⟩
  · exact hx c err h
  · exact hf a c' err h

theorem reports_ite {p : Prop} [Decidable p] (hx : Reports x) (hy : Reports y) :
    Reports (if p then x else y) := by
  split
  · exact hx
  · exact hy

/-- A reader whose answer is made into an item. -/
theorem reports_map {g : α → β} (hx : Reports x) : Reports (do return g (← x)) :=
  reports_bind hx fun _ => reports_pure

theorem reports_u1 : Reports u1 := by
  intro c err h
  unfold u1 at h
  split at h <;> cases h
  trivial

theorem reports_u2 : Reports u2 := by
  intro c err h
  unfold u2 at h
  split at h <;> cases h
  trivial

theorem reports_i4 : Reports i4 := by
  intro c err h
  unfold i4 at h
  split at h <;> cases h
  trivial

theorem reports_offsetBy (d : Int) : Reports (offsetBy d) := by
  intro c err h
  unfold offsetBy at h
  dsimp only at h
  split at h <;> cases h
  trivial

theorem reports_target2 : Reports target2 :=
  reports_bind reports_u2 fun _ => reports_offsetBy _

theorem reports_target4 : Reports target4 :=
  reports_bind reports_i4 fun _ => reports_offsetBy _

theorem reports_many (hx : Reports x) (n : Nat) : Reports (many n x) := by
  unfold many
  generalize ([] : List α) = done
  induction n generalizing done with
  | zero => exact fun _ _ => nofun
  | succ n ih =>
    intro c err h
    unfold manyOnto at h
    split at h
    · rename_i hx'
      cases h
      exact hx c err hx'
    · exact ih _ _ err h

theorem reports_truncated : Reports (truncated : CodeReader α) := by
  rintro c _ ⟨⟩
  trivial

theorem reports_invalid (op : Opcode) (behind : Nat) : Reports (invalid op behind : CodeReader α) := by
  rintro c _ ⟨⟩
  trivial

theorem reports_wideItem : Reports wideItem := by
  unfold wideItem
  refine reports_bind reports_u1 fun op => ?_
  refine reports_ite (reports_map reports_u2) ?_
  refine reports_ite (reports_bind reports_u2 fun _ => reports_map reports_u2) ?_
  exact reports_ite (reports_map reports_u2) (reports_invalid op 1)

theorem reports_tableSwitch : Reports tableSwitch := by
  unfold tableSwitch
  refine reports_bind (fun _ _ => nofun) fun _ => reports_bind reports_target4 fun fallback => ?_
  refine reports_bind reports_i4 fun low => reports_bind reports_i4 fun high => ?_
  exact reports_ite reports_truncated (reports_map (reports_many reports_target4 _))

theorem reports_lookupSwitch : Reports lookupSwitch := by
  unfold lookupSwitch
  refine reports_bind (fun _ _ => nofun) fun _ => reports_bind reports_target4 fun fallback => ?_
  refine reports_bind reports_i4 fun count => reports_ite reports_truncated ?_
  exact reports_map (reports_many (reports_bind reports_i4 fun _ => reports_map reports_target4) _)

theorem reports_item (op : Opcode) : Reports (item op) := by
  rw [item_eq]
  cases Format.of op with
  | alone | load0 | store0 => exact reports_pure
  | call | branch => exact reports_map reports_target2
  | farCall | farBranch => exact reports_map reports_target4
  | ret | byte | arrayType | constant | var => exact reports_map reports_u1
  | short | farConstant | field | method | type => exact reports_map reports_u2
  | iinc => exact reports_bind reports_u1 fun _ => reports_map reports_u1
  | interface | dynamic => exact reports_bind reports_u2 fun _ => reports_bind reports_u2 fun _ => reports_pure
  | multi => exact reports_bind reports_u2 fun _ => reports_map reports_u1
  | table => exact reports_tableSwitch
  | lookup => exact reports_lookupSwitch
  | wide => exact reports_wideItem
  | none => exact reports_invalid op 0

end Cursor

theorem readItems_reports {code : Bytes} {err : CodeError} (h : readItems code = .error err) :
    err.Reported := by
  have hall : ∀ (limit pos : Nat) (rest : Bytes) (done : List (Nat × Item)),
      readItemsOnto limit pos rest done = .error err → err.Reported := by
    intro limit
    induction limit with
    | zero => exact fun _ _ _ => nofun
    | succ limit ih =>
      intro pos rest done h
      cases rest with
      | nil => cases h
      | cons op rest =>
        unfold readItemsOnto at h
        split at h
        · rename_i hitem
          cases h
          exact Cursor.reports_item op _ _ hitem
        · exact ih _ _ _ h
  exact hall _ _ _ _ h

theorem placeMarks_reports {items : List (Nat × Item)} {length : Nat} {labels : OffsetLabels}
    {lines : Std.TreeMap Nat (List UInt16)} {err : CodeError}
    (h : placeMarks items length labels lines = .error err) : err.Reported := by
  unfold placeMarks at h
  dsimp only at h
  split at h <;> cases h
  trivial

namespace CodeAttribute

variable {c : CodeAttribute} {items : List (Nat × Item)} {placed : List Item}

/-- A protected range of code with subroutines ends before it starts. Nothing else is wrong. -/
structure Inverted (c : CodeAttribute) : Prop where
  wellFormed : c.WellFormed
  calls : ∃ pc, c.code.Start pc ∧ pc < c.code.length ∧ c.code.isSubroutine pc = true
  ends : ∃ e ∈ c.exceptions, e.endPc.toNat < e.startPc.toNat

/-- What decoding comes to, if it does not give a body. -/
theorem decode_eq_error {err : CodeError} : decode c = .error err ↔
    readItems c.code = .error err ∨ ∃ items, readItems c.code = .ok items ∧
      (placeMarks (items.map fun x => (x.1, x.2.retarget (c.offsetLabels items).of)) c.code.length
          (c.offsetLabels items) (linesByOffset c.lineEntries) = .error err ∨
        ∃ placed, c.Symbolic items placed ∧ placed.any Item.isSubroutine = true ∧
          Subroutine.expand placed (c.ranges items) (c.offsetLabels items).size = .error err) := by
  unfold decode
  rw [bind_eq_error]
  refine or_congr_right (exists_congr fun items => and_congr_right fun hitems => ?_)
  dsimp only
  rw [bind_eq_error]
  refine or_congr_right (exists_congr fun placed => ?_)
  constructor
  · rintro ⟨hplaced, h⟩
    split at h
    · rename_i hany
      rcases bind_eq_error.1 h with h | ⟨e, -, h⟩
      · exact ⟨⟨hitems, hplaced⟩, hany, h⟩
      · cases h
    · cases h
  · rintro ⟨h, hany, he⟩
    refine ⟨h.marked, ?_⟩
    rw [if_pos hany]
    exact bind_eq_error.2 (.inl he)

/-- Symbolic code calls subroutines if the code does. -/
theorem Symbolic.any_isSubroutine (h : c.Symbolic items placed) :
    placed.any Item.isSubroutine = true ↔
      ∃ pc, c.code.Start pc ∧ pc < c.code.length ∧ c.code.isSubroutine pc = true := by
  constructor
  · intro hany
    by_contra hnone
    have hplain : c.WithoutSubroutines := fun pc hpc hlt =>
      Bool.eq_false_iff.2 fun hsub => hnone ⟨pc, hpc, hlt, hsub⟩
    rw [h.straight (straight_of_withoutSubroutines hplain)] at hany
    cases hany
  · rintro ⟨pc, hpc, hlt, hsub⟩
    obtain ⟨x, hx⟩ := (h.run.mem_of_start hpc).resolve_left (Nat.ne_of_lt hlt)
    obtain ⟨-, -, -, -, hsame, -⟩ := h.run.of_mem hx
    refine List.any_eq_true.2 ⟨x.retarget (c.offsetLabels items).of, ?_, ?_⟩
    · rw [h.placed_eq]
      refine List.mem_append_left _ (List.mem_flatMap.2 ⟨_, hx, ?_⟩)
      exact List.mem_append_right _ (List.mem_singleton_self _)
    · rw [Item.isSubroutine_retarget, hsame, hsub]

/-- A region ends before it starts if some protected range does. -/
theorem Symbolic.exists_inverted (h : c.Symbolic items placed) {regions : List Subroutine.Region}
    (hregions : (c.ranges items).mapM (Subroutine.region (Subroutine.itemPositions placed)) = .ok regions) :
    (∃ r ∈ regions, r.stop < r.start) ↔ ∃ e ∈ c.exceptions, e.endPc.toNat < e.startPc.toNat := by
  have hlt : List.Forall₂ (fun (e : ExceptionEntry) (r : Subroutine.Region) =>
      r.stop < r.start ↔ e.endPc.toNat < e.startPc.toNat) c.exceptions regions := by
    have hforall := mapM_eq_ok.1 hregions
    unfold ranges at hforall
    rw [List.forall₂_map_left_iff] at hforall
    refine forall₂_imp_of_mem hforall fun e he r _ hr => ?_
    obtain ⟨hstart, hstop, -, -⟩ := Subroutine.region_eq_ok.1 hr
    rw [h.sound.position_iff] at hstart hstop
    have named {o : Nat} (ho : o ∈ [e.startPc.toNat, e.endPc.toNat, e.handlerPc.toNat]) :=
      label_of_mentioned (@mentioned_of_exception c items e he o ho)
    exact h.place_lt_iff (named (List.mem_cons_of_mem _ (List.mem_cons_self ..)))
      (named (List.mem_cons_self ..)) hstop hstart
  constructor
  · rintro ⟨r, hr, hinv⟩
    obtain ⟨e, he, hiff⟩ := (mem_forall₂ hlt).2 r hr
    exact ⟨e, he, hiff.1 hinv⟩
  · rintro ⟨e, he, hinv⟩
    obtain ⟨r, hr, hiff⟩ := (mem_forall₂ hlt).1 e he
    exact ⟨r, hr, hiff.2 hinv⟩

end CodeAttribute

/-- Decoding gives a body or reports a fault of the code, unless a protected range of code with
subroutines ends before it starts. Then, and only then, the range itself is refused. -/
theorem decode_reports_iff (c : CodeAttribute) :
    (∀ err, decode c = .error err → err.Reported ∨ ∃ l, err = .invertedRange l) ∧
      ((∃ l, decode c = .error (.invertedRange l)) ↔ c.Inverted) := by
  -- A fault that is found while the subroutines are expanded is of one of two kinds.
  have expanding {items : List (Nat × Item)} {placed : List Item} {err : CodeError}
      (h : c.Symbolic items placed)
      (he : Subroutine.expand placed (c.ranges items) (c.offsetLabels items).size = .error err) :
      (∃ l, err = .invertedRange l) ∧ (∃ e ∈ c.exceptions, e.endPc.toNat < e.startPc.toNat) ∨
        ∃ i, err = .subroutine i := by
    obtain ⟨regions, hregions, hexpands⟩ := h.sound.expands
    rw [he] at hexpands
    rcases hexpands with ⟨r, hr, hinv, rfl⟩ | ⟨-, hsub⟩
    · exact .inl ⟨⟨_, rfl⟩, (h.exists_inverted hregions).1 ⟨r, hr, hinv⟩⟩
    · exact .inr hsub
  constructor
  · intro err h
    rcases CodeAttribute.decode_eq_error.1 h with h | ⟨items, hitems, h | ⟨placed, h, -, he⟩⟩
    · exact .inl (readItems_reports h)
    · exact .inl (placeMarks_reports h)
    · rcases expanding h he with ⟨hinv, -⟩ | ⟨i, rfl⟩
      · exact .inr hinv
      · exact .inl trivial
  constructor
  · rintro ⟨l, h⟩
    rcases CodeAttribute.decode_eq_error.1 h with h | ⟨items, hitems, h | ⟨placed, h, hany, he⟩⟩
    · exact (readItems_reports h).elim
    · exact (placeMarks_reports h).elim
    · rcases expanding h he with ⟨-, hends⟩ | ⟨i, hi⟩
      · exact ⟨CodeAttribute.symbolic_isOk.1 ⟨items, placed, h⟩, h.any_isSubroutine.1 hany, hends⟩
      · cases hi
  · intro hc
    obtain ⟨items, placed, h⟩ := CodeAttribute.symbolic_isOk.2 hc.wellFormed
    obtain ⟨regions, hregions⟩ := h.sound.regions
    obtain ⟨r, hr, hinv⟩ := (h.exists_inverted hregions).2 hc.ends
    obtain ⟨r', hfind⟩ : ∃ r', regions.find? (fun r => r.stop < r.start) = some r' :=
      Option.isSome_iff_exists.1 (List.find?_isSome.2 ⟨r, hr, decide_eq_true hinv⟩)
    refine ⟨r'.entry.start, CodeAttribute.decode_eq_error.2 (.inr ⟨items, h.read, .inr ⟨placed, h,
      h.any_isSubroutine.2 hc.calls, ?_⟩⟩)⟩
    rw [Subroutine.expand_eq hregions, hfind]

/-- A call of the instruction behind its return, and a protected range that ends where the code starts. -/
def backwardRange : CodeAttribute where
  maxStack := 1
  maxLocals := 1
  code := [Op.jsr, 0x00, 0x04, Op.returnVoid, 0x4b, Op.ret, 0x00]
  exceptions := [⟨3, 0, 0, 0⟩]
  attributes := []

/-- The fault is none that decoding reports. -/
theorem decode_refuses_backwardRange :
    decode backwardRange = .error (.invertedRange 1) ∧ ¬ (CodeError.invertedRange 1).Reported := by
  refine ⟨?_, id⟩
  have hrefused : (decode backwardRange).map (fun _ => ()) = .error (.invertedRange 1) := by
    decide +kernel
  cases hdecoded : decode backwardRange with
  | error e =>
    rw [hdecoded] at hrefused
    cases hrefused
    rfl
  | ok b =>
    rw [hdecoded] at hrefused
    cases hrefused

end Interpose

import Interpose.Code.Decode
import Interpose.Proofs.Code.Labels
/-!
# Decoded bodies

Operands alone place no labels (`Cursor.item_gives`), so every label of decoded code without subroutine
calls has a number below the next one (`decode_labelsBelow`).
-/

namespace Interpose

/-! ## Single instructions -/

namespace Cursor

variable {α β : Type}

def Gives (x : CodeReader α) (φ : α → Prop) : Prop :=
  ∀ c a c', x c = .ok (a, c') → φ a

theorem gives_pure {a : α} {φ : α → Prop} (h : φ a) : Gives (pure a) φ := by
  intro c b c' hb
  cases hb
  exact h

theorem gives_bind {x : CodeReader α} {f : α → CodeReader β} {φ : β → Prop}
    (h : ∀ a, Gives (f a) φ) : Gives (x >>= f) φ := by
  intro c b c' hb
  obtain ⟨⟨a, c1⟩, -, hb⟩ := bind_eq_ok.1 hb
  exact h a c1 b c' hb

theorem gives_ite {p : Prop} [Decidable p] {x y : CodeReader α} {φ : α → Prop}
    (hx : p → Gives x φ) (hy : ¬ p → Gives y φ) : Gives (if p then x else y) φ := by
  split
  · exact hx ‹_›
  · exact hy ‹_›

/-- The item is an instruction that takes bytes, or it calls or ends a subroutine. -/
def Real (x : Item) : Prop := x.isPseudo = false

theorem wideItem_gives : Gives wideItem Real := by
  unfold wideItem
  refine gives_bind fun op => ?_
  refine gives_ite (fun _ => gives_bind fun _ => gives_pure rfl) fun _ => ?_
  refine gives_ite (fun _ => gives_bind fun _ => gives_bind fun _ => gives_pure rfl) fun _ => ?_
  exact gives_ite (fun _ => gives_bind fun _ => gives_pure rfl) fun _ => nofun

theorem tableSwitch_gives : Gives tableSwitch Real := by
  unfold tableSwitch
  refine gives_bind fun _ => gives_bind fun _ => gives_bind fun _ => gives_bind fun _ => ?_
  exact gives_ite (fun _ => nofun) fun _ => gives_bind fun _ => gives_pure rfl

theorem lookupSwitch_gives : Gives lookupSwitch Real := by
  unfold lookupSwitch
  refine gives_bind fun _ => gives_bind fun _ => gives_bind fun _ => ?_
  exact gives_ite (fun _ => nofun) fun _ => gives_bind fun _ => gives_pure rfl

/-- The bytes of an instruction hold no mark. -/
theorem item_gives (op : Opcode) : Gives (item op) Real := by
  have one : ∀ {α : Type} {x : CodeReader α} {f : α → Item}, (∀ a, Real (f a)) →
      Gives (do return f (← x)) Real := fun h => gives_bind fun a => gives_pure (h a)
  unfold item
  refine gives_ite (fun _ => gives_pure rfl) fun _ => ?_
  refine gives_ite (fun _ => one fun _ => rfl) fun _ => ?_
  refine gives_ite (fun _ => one fun _ => rfl) fun _ => ?_
  refine gives_ite (fun _ => one fun _ => rfl) fun _ => ?_
  refine gives_ite (fun _ => one fun _ => rfl) fun _ => ?_
  refine gives_ite (fun _ => one fun _ => rfl) fun _ => ?_
  refine gives_ite (fun _ => one fun _ => rfl) fun _ => ?_
  refine gives_ite (fun _ => one fun _ => rfl) fun _ => ?_
  refine gives_ite (fun _ => one fun _ => rfl) fun _ => ?_
  refine gives_ite (fun _ => one fun _ => rfl) fun _ => ?_
  refine gives_ite (fun _ => gives_pure rfl) fun _ => ?_
  refine gives_ite (fun _ => gives_pure rfl) fun _ => ?_
  refine gives_ite (fun _ => gives_bind fun _ => gives_bind fun _ => gives_pure rfl) fun _ => ?_
  refine gives_ite (fun _ => one fun _ => rfl) fun _ => ?_
  refine gives_ite (fun _ => one fun _ => rfl) fun _ => ?_
  refine gives_ite (fun _ => tableSwitch_gives) fun _ => ?_
  refine gives_ite (fun _ => lookupSwitch_gives) fun _ => ?_
  refine gives_ite (fun _ => one fun _ => rfl) fun _ => ?_
  refine gives_ite (fun _ => one fun _ => rfl) fun _ => ?_
  refine gives_ite (fun _ => gives_bind fun _ => gives_bind fun _ => gives_pure rfl) fun _ => ?_
  refine gives_ite (fun _ => gives_bind fun _ => gives_bind fun _ => gives_pure rfl) fun _ => ?_
  refine gives_ite (fun _ => one fun _ => rfl) fun _ => ?_
  refine gives_ite (fun _ => wideItem_gives) fun _ => ?_
  exact gives_ite (fun _ => gives_bind fun _ => gives_bind fun _ => gives_pure rfl) fun _ => nofun

end Cursor

/-- What is read, item by item. -/
theorem readItems_gives {φ : Item → Prop} (hitem : ∀ op, Cursor.Gives (Cursor.item op) φ) {code : Bytes}
    {items : List (Nat × Item)} (h : readItems code = .ok items) : ∀ x ∈ items, φ x.2 := by
  suffices onto : ∀ limit pos rest done, (∀ x ∈ done, φ x.2) →
      readItemsOnto limit pos rest done = .ok items → ∀ x ∈ items, φ x.2 from
    onto _ _ _ _ (fun _ hx => (List.not_mem_nil hx).elim) h
  intro limit
  induction limit with
  | zero =>
    intro pos rest done hdone h x hx
    cases h
    exact hdone x (List.mem_reverse.1 hx)
  | succ limit ih =>
    intro pos rest done hdone h
    unfold readItemsOnto at h
    cases rest with
    | nil =>
      intro x hx
      cases h
      exact hdone x (List.mem_reverse.1 hx)
    | cons op rest =>
      simp only at h
      split at h
      · cases h
      · rename_i item c hread
        refine ih _ _ _ (fun x hx => ?_) h
        rcases List.mem_cons.1 hx with rfl | hx
        · exact hitem op _ _ _ hread
        · exact hdone x hx

theorem readItems_real {code : Bytes} {items : List (Nat × Item)} (h : readItems code = .ok items) :
    ∀ x ∈ items, Cursor.Real x.2 :=
  readItems_gives Cursor.item_gives h

/-! ## Labels -/

theorem numberOffsets_lt {offsets : List Nat} {o : Nat} {l : Label}
    (h : (numberOffsets offsets)[o]? = some l) : l < (numberOffsets offsets).size := by
  suffices invariant : ∀ labels : OffsetLabels, (∀ o l, labels[o]? = some l → l < labels.size) →
      ∀ o l, (offsets.foldl (fun labels o => labels.insertIfNew o labels.size) labels)[o]? = some l →
        l < (offsets.foldl (fun labels o => labels.insertIfNew o labels.size) labels).size from
    invariant ∅ (fun _ _ h => by rw [Std.TreeMap.getElem?_emptyc] at h; cases h) o l h
  clear h
  induction offsets with
  | nil => exact fun labels hlabels => hlabels
  | cons next offsets ih =>
    intro labels hlabels
    refine ih _ fun o l h => ?_
    rw [Std.TreeMap.getElem?_insertIfNew] at h
    rw [Std.TreeMap.size_insertIfNew]
    split at h
    · rename_i hnew
      cases h
      rw [if_neg hnew.2]
      exact Nat.lt_succ_self _
    · have := hlabels o l h
      split
      · exact this
      · exact Nat.lt_succ_of_lt this

theorem mem_placeMarks {items : List (Nat × Item)} {length : Nat} {labels : OffsetLabels}
    {lines : Std.TreeMap Nat (List UInt16)} {placed : List Item}
    (h : placeMarks items length labels lines = .ok placed) {x : Item} (hx : x ∈ placed) :
    (∃ y ∈ items, y.2 = x) ∨ (∃ (o : Nat) (l : Label), labels[o]? = some l ∧ x = .insn (.label l)) ∨
      ∃ n, x = .insn (.line n) := by
  unfold placeMarks at h
  simp only at h
  split at h
  · cases h
  · cases h
    have mark : ∀ {o : Nat}, x ∈ labels[o]?.toList.map (fun l => Item.insn (.label l)) →
        ∃ (o : Nat) (l : Label), labels[o]? = some l ∧ x = .insn (.label l) := by
      intro o hx
      obtain ⟨l, hl, rfl⟩ := List.mem_map.1 hx
      exact ⟨o, l, Option.mem_toList.1 hl, rfl⟩
    rcases List.mem_append.1 hx with hx | hx
    · obtain ⟨y, hy, hx⟩ := List.mem_flatMap.1 hx
      rcases List.mem_append.1 hx with hx | hx
      · rcases List.mem_append.1 hx with hx | hx
        · exact .inr (.inl (mark hx))
        · obtain ⟨n, -, rfl⟩ := List.mem_map.1 hx
          exact .inr (.inr ⟨n, rfl⟩)
      · exact .inl ⟨y, hy, (List.mem_singleton.1 hx).symm⟩
    · exact .inr (.inl (mark hx))

theorem Item.isSubroutine_retarget (f : Label → Label) (x : Item) :
    (x.retarget f).isSubroutine = x.isSubroutine := by
  cases x <;> rfl

theorem Item.isPseudo_retarget (f : Label → Label) (x : Item) :
    (x.retarget f).isPseudo = x.isPseudo := by
  cases x with
  | insn i => cases i <;> rfl
  | _ => rfl

/-- Marks are no subroutines. -/
theorem placeMarks_straight {items : List (Nat × Item)} {length : Nat} {labels : OffsetLabels}
    {lines : Std.TreeMap Nat (List UInt16)} {placed : List Item}
    (h : placeMarks items length labels lines = .ok placed)
    (hitems : ∀ x ∈ items, x.2.isSubroutine = false) : placed.any Item.isSubroutine = false := by
  rw [Bool.eq_false_iff]
  intro hany
  obtain ⟨x, hx, hsub⟩ := List.any_eq_true.1 hany
  rcases mem_placeMarks h hx with ⟨y, hy, rfl⟩ | ⟨o, l, -, rfl⟩ | ⟨n, rfl⟩
  · rw [hitems y hy] at hsub
    cases hsub
  · cases hsub
  · cases hsub

/-- The code calls no subroutines. -/
def CodeAttribute.Straight (c : CodeAttribute) : Prop :=
  ∀ items, readItems c.code = .ok items → ∀ x ∈ items, x.2.isSubroutine = false

instance (c : CodeAttribute) : Decidable c.Straight :=
  decidable_of_iff ((readItems c.code).toOption.all (·.all fun x => !x.2.isSubroutine) = true) (by
    unfold CodeAttribute.Straight
    cases readItems c.code <;> simp [Except.toOption])

/-- Without subroutines a decoded body is what the bytes and the tables say. -/
theorem decode_straight {c : CodeAttribute} {b : Body} (hc : c.Straight) (h : decode c = .ok b) :
    ∃ items placed, readItems c.code = .ok items ∧
      placeMarks (items.map fun x => (x.1, x.2.retarget fun o =>
          (numberOffsets (c.mentionedOffsets items)).getD o 0)) c.code.length
        (numberOffsets (c.mentionedOffsets items)) (linesByOffset c.lineEntries) = .ok placed ∧
      b.insns = placed.filterMap Item.insn? ∧
      b.nextLabel = (numberOffsets (c.mentionedOffsets items)).size ∧ b.maxLocals = c.maxLocals ∧
      b.tryCatch = c.exceptions.map fun e =>
        { start := (numberOffsets (c.mentionedOffsets items)).getD e.startPc.toNat 0
          stop := (numberOffsets (c.mentionedOffsets items)).getD e.endPc.toNat 0
          handler := (numberOffsets (c.mentionedOffsets items)).getD e.handlerPc.toNat 0
          catchType := e.catchType } := by
  unfold decode at h
  obtain ⟨items, hitems, h⟩ := bind_eq_ok.1 h
  obtain ⟨placed, hplaced, h⟩ := bind_eq_ok.1 h
  have hnone : placed.any Item.isSubroutine = false := by
    refine placeMarks_straight hplaced fun y hy => ?_
    obtain ⟨z, hz, rfl⟩ := List.mem_map.1 hy
    rw [Item.isSubroutine_retarget, hc items hitems z hz]
  simp only [hnone, Bool.false_eq_true, if_false] at h
  cases h
  exact ⟨items, placed, hitems, hplaced, rfl, rfl, rfl, rfl⟩

theorem decode_labelsBelow {c : CodeAttribute} {b : Body} (hc : c.Straight) (h : decode c = .ok b) :
    LabelsBelow b := by
  obtain ⟨items, placed, hitems, hplaced, hinsns, hnext, -⟩ := decode_straight hc h
  intro l hl
  rw [hinsns] at hl
  obtain ⟨x, hx, hinsn⟩ := List.mem_filterMap.1 hl
  rw [hnext]
  rcases mem_placeMarks hplaced hx with ⟨y, hy, rfl⟩ | ⟨o, l', hl', rfl⟩ | ⟨n, rfl⟩
  · obtain ⟨z, hz, rfl⟩ := List.mem_map.1 hy
    have hreal := readItems_real hitems z hz
    unfold Cursor.Real at hreal
    rw [← Item.isPseudo_retarget] at hreal
    simp only at hinsn
    cases hz' : Item.retarget _ z.2 with
    | insn i =>
      rw [hz'] at hinsn hreal
      cases hinsn
      cases hreal
    | _ =>
      rw [hz'] at hinsn
      cases hinsn
  · cases hinsn
    exact numberOffsets_lt hl'
  · cases hinsn

end Interpose

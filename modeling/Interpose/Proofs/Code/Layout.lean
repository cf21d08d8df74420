import Interpose.Code.Encode
import Interpose.Proofs.Code.Labels
/-!
# Layout and encoding

A layout gives every instruction an offset within the code, and a label the offset of its last
place (`Layout.Fits`); encoded code keeps them (`encode_fits`).
-/

namespace Interpose

namespace Layout

theorem offsetsOnto_done (pool : Pool) (done : List Nat) (pc : Nat) (insns : List Insn)
    (widths : Widths) :
    offsetsOnto pool done pc insns widths =
      (done.reverse ++ (offsetsOnto pool [] pc insns widths).1,
        (offsetsOnto pool [] pc insns widths).2) := by
  induction insns generalizing done pc widths with
  | nil => simp [offsetsOnto]
  | cons insn insns ih =>
    cases widths with
    | nil => simp [offsetsOnto]
    | cons wide widths =>
      simp only [offsetsOnto]
      rw [ih (pc :: done), ih [pc]]
      simp

theorem offsetsOnto_cons (pool : Pool) (pc : Nat) (insn : Insn) (insns : List Insn) (wide : Bool)
    (widths : Widths) :
    offsetsOnto pool [] pc (insn :: insns) (wide :: widths) =
      (pc :: (offsetsOnto pool [] (pc + size pool pc wide insn) insns widths).1,
        (offsetsOnto pool [] (pc + size pool pc wide insn) insns widths).2) := by
  simp only [offsetsOnto]
  rw [offsetsOnto_done]
  rfl

theorem offsetsOnto_length (pool : Pool) {insns : List Insn} {widths : Widths}
    (h : widths.length = insns.length) (pc : Nat) :
    (offsetsOnto pool [] pc insns widths).1.length = insns.length := by
  induction insns generalizing pc widths with
  | nil => simp [offsetsOnto]
  | cons insn insns ih =>
    cases widths with
    | nil => cases h
    | cons wide widths =>
      rw [offsetsOnto_cons, List.length_cons, List.length_cons, ih (by simpa using h)]

/-- Every offset lies between the start and the end. -/
theorem offsetsOnto_bound {pool : Pool} {insns : List Insn} (widths : Widths) (pc : Nat) :
    pc ≤ (offsetsOnto pool [] pc insns widths).2 ∧
      ∀ (i o : Nat), (offsetsOnto pool [] pc insns widths).1[i]? = some o →
        o ≤ (offsetsOnto pool [] pc insns widths).2 := by
  induction insns generalizing pc widths with
  | nil => simp [offsetsOnto]
  | cons insn insns ih =>
    cases widths with
    | nil => simp [offsetsOnto]
    | cons wide widths =>
      rw [offsetsOnto_cons]
      obtain ⟨h1, h2⟩ := ih widths (pc + size pool pc wide insn)
      refine ⟨by simp only; omega, fun i o hi => ?_⟩
      cases i with
      | zero =>
        simp only [List.getElem?_cons_zero, Option.some.injEq] at hi ⊢
        omega
      | succ i => exact h2 i o (by simpa using hi)

/-- The offset of a label is that of its last place. -/
theorem labelOffsets_eq_some (placed : List (Insn × Nat)) (label : Label) (o : Nat) :
    (placed.foldl (fun (labels : Std.TreeMap Label Nat) (insn, pc) =>
      match insn with
      | .label l => labels.insert l pc
      | _ => labels) ∅)[label]? = some o ↔
    ∃ i, LastPlace (placed.map (·.1)) label i ∧ (placed.map (·.2))[i]? = some o := by
  induction placed using List.reverseRecOn with
  | nil => simp [LastPlace]
  | append_singleton placed x ih =>
    obtain ⟨insn, pc⟩ := x
    rw [List.foldl_append, List.foldl_cons, List.foldl_nil, List.map_append, List.map_append]
    generalize placed.foldl _ _ = labels at ih
    simp only [List.map_cons, List.map_nil]
    have old : ∀ i, LastPlace (placed.map (·.1)) label i →
        (placed.map (·.2) ++ [pc])[i]? = (placed.map (·.2))[i]? := by
      intro i hi
      have hlt := hi.lt
      rw [List.length_map] at hlt
      rw [List.getElem?_append_left (by simpa using hlt)]
    have new : (placed.map (·.2) ++ [pc])[(placed.map (·.1)).length]? = some pc := by simp
    by_cases hl : insn = .label label
    · subst hl
      simp only [Std.TreeMap.getElem?_insert_self, Option.some.injEq]
      constructor
      · rintro rfl
        exact ⟨_, lastPlace_append.2 (.inl ⟨rfl, rfl⟩), new⟩
      · rintro ⟨i, hi, ho⟩
        rcases lastPlace_append.1 hi with ⟨-, rfl⟩ | ⟨hne, -⟩
        · rw [new] at ho
          exact Option.some.inj ho
        · exact absurd rfl hne
    · have same : ∀ r : Std.TreeMap Label Nat, r[label]? = labels[label]? →
          (r[label]? = some o ↔ ∃ i, LastPlace (placed.map (·.1) ++ [insn]) label i ∧
            (placed.map (·.2) ++ [pc])[i]? = some o) := by
        intro r hr
        rw [hr, ih]
        constructor
        · rintro ⟨i, hi, ho⟩
          exact ⟨i, lastPlace_append.2 (.inr ⟨hl, hi⟩), by rw [old i hi, ho]⟩
        · rintro ⟨i, hi, ho⟩
          rcases lastPlace_append.1 hi with ⟨h, -⟩ | ⟨-, hi⟩
          · exact absurd h hl
          · exact ⟨i, hi, by rw [← old i hi, ho]⟩
      cases hp : insn.placed with
      | none =>
        cases insn <;> first | exact same labels rfl | cases hp
      | some k =>
        rw [placed_eq_some] at hp
        subst hp
        have hk : k ≠ label := fun e => hl (by rw [e])
        refine same _ ?_
        rw [Std.TreeMap.getElem?_insert, if_neg (by simpa using hk)]

structure Fits (l : Layout) (insns : List Insn) : Prop where
  widths : l.widths.length = insns.length
  offsets : l.offsets.length = insns.length
  bound : ∀ (i o : Nat), l.offsets[i]? = some o → o ≤ l.length
  labels : ∀ (label : Label) (o : Nat), l.labels[label]? = some o ↔
    ∃ i, LastPlace insns label i ∧ l.offsets[i]? = some o

theorem ofWidths_fits (pool : Pool) {insns : List Insn} {widths : Widths}
    (h : widths.length = insns.length) : (ofWidths pool insns widths).Fits insns := by
  have hlen := offsetsOnto_length pool h 0
  refine ⟨h, hlen, (offsetsOnto_bound _ 0).2, fun label o => ?_⟩
  have placed := labelOffsets_eq_some (insns.zip (offsetsOnto pool [] 0 insns widths).1) label o
  rw [List.map_fst_zip (by omega), List.map_snd_zip (by omega)] at placed
  exact placed

theorem settle_fits {pool : Pool} {insns : List Insn} {passes : Nat} {widths : Widths} {l : Layout}
    (h : widths.length = insns.length) (hs : settle pool insns passes widths = .ok l) :
    l.Fits insns := by
  induction passes generalizing widths with
  | zero => cases hs
  | succ passes ih =>
    obtain ⟨wider, hw, hs⟩ := bind_eq_ok.1 hs
    split at hs
    · cases hs
      exact ofWidths_fits pool h
    · refine ih ?_ hs
      rw [← (mapM_eq_ok.1 hw).length_eq]
      have := (ofWidths_fits pool h).offsets
      have hw : (ofWidths pool insns widths).widths = widths := rfl
      simp [hw]
      omega

theorem ofInsns_fits {pool : Pool} {insns : List Insn} {l : Layout}
    (h : ofInsns pool insns = .ok l) : l.Fits insns :=
  settle_fits (by simp) h

end Layout

/-! ## Encoded code -/

/-- The parts that encoded code is put together from. -/
theorem encode_eq_ok {b : Body} {pool : Pool} {e : Encoded} (h : encode b pool = .ok e) :
    ∃ l parts, Layout.ofInsns pool b.insns = .ok l ∧ l.length ≤ maxCodeLength ∧
      List.Forall₂ (fun x bytes => Encode.bytesOfInsn pool l x.1.2 x.2 x.1.1 = .ok bytes)
        ((b.insns.zip l.offsets).zip l.widths) parts ∧
      e.offsets = l.offsets.toArray ∧ e.labels = l.labels ∧
      e.widened = Encode.widenedFallthroughs l b.insns ∧
      List.Forall₂ (fun t x => Encode.exceptionEntry l t = .ok x) b.tryCatch e.exceptions := by
  unfold encode at h
  obtain ⟨l, hl, h⟩ := bind_eq_ok.1 h
  by_cases hsize : l.length > maxCodeLength
  · simp only [hsize, if_true] at h
    cases h
  · simp only [hsize, if_false] at h
    obtain ⟨parts, hparts, h⟩ := bind_eq_ok.1 h
    obtain ⟨exceptions, hexceptions, h⟩ := bind_eq_ok.1 h
    cases h
    exact ⟨l, parts, hl, by omega, mapM_eq_ok.1 hparts, rfl, rfl, rfl, mapM_eq_ok.1 hexceptions⟩

/-- Encoded code of a list of instructions: each has an offset within the code, and labels have the
offset of their last place. -/
structure Encoded.Fits (e : Encoded) (insns : List Insn) : Prop where
  size : e.offsets.size = insns.length
  bound : ∀ (i o : Nat), e.offsets[i]? = some o → o ≤ maxCodeLength
  labels : ∀ (label : Label) (o : Nat), e.labels[label]? = some o ↔
    ∃ i, LastPlace insns label i ∧ e.offsets[i]? = some o

theorem encode_fits {b : Body} {pool : Pool} {e : Encoded} (h : encode b pool = .ok e) :
    e.Fits b.insns := by
  obtain ⟨l, parts, hl, hsize, -, ho, hlabels, -⟩ := encode_eq_ok h
  have hfits := Layout.ofInsns_fits hl
  refine ⟨by rw [ho, List.size_toArray, hfits.offsets], fun i o hi => ?_, fun label o => ?_⟩
  · rw [ho, List.getElem?_toArray] at hi
    exact Nat.le_trans (hfits.bound i o hi) hsize
  · rw [hlabels, hfits.labels, ho]
    simp only [List.getElem?_toArray]

end Interpose

import Interpose.Proofs.Code.Symbolic
/-!
# Copies of code

What expanding subroutines writes is told beside its output: for every instruction the item that it is a
copy of, and in which copy it stands (`Trace`). What has been written so far keeps its labels apart and
names only labels that are given out (`Written`), and for each protected region the ranges recorded and the
one still open cover the copies of what the region covers, and nothing else (`Standing`).

`Writes` says what a step of writing leaves behind. In front of an instruction a region's open range is
ended or a new one is opened, and then one is open exactly if the region covers the instruction
(`cross_writes`).
-/

namespace Interpose

theorem Item.placed_eq_some {x : Item} {l : Label} : x.placed = some l ↔ x = .insn (.label l) := by
  cases x with
  | insn i => rw [Item.placed, Interpose.placed_eq_some, Item.insn.injEq]
  | jsr _ | ret _ => constructor <;> rintro ⟨⟩

namespace Subroutine

/-! ## Places of labels -/

theorem itemPositions_append (items : List Item) (x : Item) :
    itemPositions (items ++ [x]) = match x.placed with
      | some l => (itemPositions items).insert l items.length
      | none => itemPositions items := by
  unfold itemPositions
  rw [List.zipIdx_append, List.foldl_append]
  cases hx : x.placed <;>
    simp only [List.zipIdx_cons, List.zipIdx_nil, List.foldl_cons, List.foldl_nil, Nat.zero_add, hx]

theorem label_of_itemPositions {items : List Item} {l : Label} {i : Nat}
    (h : (itemPositions items)[l]? = some i) : items[i]? = some (.insn (.label l)) := by
  induction items using List.reverseRecOn with
  | nil => simp [itemPositions] at h
  | append_singleton items x ih =>
    have front (h : (itemPositions items)[l]? = some i) :
        (items ++ [x])[i]? = some (.insn (.label l)) := by
      have hi := ih h
      rwa [List.getElem?_append_left (List.getElem?_eq_some_iff.1 hi).1]
    rw [itemPositions_append] at h
    split at h
    · rename_i l' hl'
      rw [Std.TreeMap.getElem?_insert] at h
      split at h
      · rename_i he
        cases Std.compare_eq_iff_eq.1 he
        cases h
        rw [List.getElem?_append_right (Nat.le_refl _), Nat.sub_self, Item.placed_eq_some.1 hl']
        rfl
      · exact front h
    · exact front h

theorem itemPositions_isSome {items : List Item} {l : Label} (h : l ∈ items.filterMap Item.placed) :
    ∃ i, (itemPositions items)[l]? = some i := by
  induction items using List.reverseRecOn with
  | nil => exact absurd h List.not_mem_nil
  | append_singleton items x ih =>
    rw [List.filterMap_append, List.mem_append] at h
    rw [itemPositions_append]
    split
    · rename_i l' hl'
      rw [Std.TreeMap.getElem?_insert]
      split
      · exact ⟨_, rfl⟩
      · rename_i hne
        refine ih (h.resolve_right fun hx => hne ?_)
        rw [List.filterMap_cons_some hl', List.filterMap_nil, List.mem_singleton] at hx
        exact Std.compare_eq_iff_eq.2 hx.symm
    · rename_i hnone
      refine ih (h.resolve_right fun hx => ?_)
      rw [List.filterMap_cons_none hnone, List.filterMap_nil] at hx
      exact List.not_mem_nil hx

variable {items : List Item} {tryCatch : List TryCatch} {next : Label}

/-- The number of a label is that of the item that places it. -/
theorem Sound.position_iff (h : Sound items tryCatch next) {l : Label} {i : Nat} :
    (itemPositions items)[l]? = some i ↔ items[i]? = some (.insn (.label l)) := by
  refine ⟨label_of_itemPositions, fun hi => ?_⟩
  have hplaced : (Item.insn (.label l)).placed = some l := rfl
  obtain ⟨j, hj⟩ := itemPositions_isSome (List.mem_filterMap.2 ⟨_, List.mem_of_getElem? hi, hplaced⟩)
  rw [hj, filterMap_index_unique h.nodup hi hplaced (label_of_itemPositions hj) hplaced]

/-- Every protected range is resolved. -/
theorem Sound.regions (h : Sound items tryCatch next) :
    ∃ rs, tryCatch.mapM (region (itemPositions items)) = .ok rs := by
  refine mapM_ok fun t ht => ?_
  have at_label {l : Label} (hl : l ∈ [t.start, t.stop, t.handler]) :
      ∃ i, labelAt (itemPositions items) l = .ok i := by
    obtain ⟨i, hi⟩ := itemPositions_isSome (h.ranges t ht l hl)
    exact ⟨i, labelAt_eq_ok.2 hi⟩
  obtain ⟨start, hstart⟩ := at_label (List.mem_cons_self ..)
  obtain ⟨stop, hstop⟩ := at_label (List.mem_cons_of_mem _ (List.mem_cons_self ..))
  obtain ⟨handler, hhandler⟩ := at_label
    (List.mem_cons_of_mem _ (List.mem_cons_of_mem _ (List.mem_singleton_self _)))
  exact ⟨_, bind_eq_ok.2 ⟨start, hstart, bind_eq_ok.2 ⟨stop, hstop, bind_eq_ok.2 ⟨handler, hhandler, rfl⟩⟩⟩⟩

/-- What a protected range is resolved to. -/
theorem region_eq_ok {t : TryCatch} {r : Region} : region (itemPositions items) t = .ok r ↔
    (itemPositions items)[t.start]? = some r.start ∧ (itemPositions items)[t.stop]? = some r.stop ∧
      (itemPositions items)[t.handler]? = some r.handler ∧ r.entry = t := by
  obtain ⟨start, stop, handler, entry⟩ := r
  unfold region
  constructor
  · intro h
    obtain ⟨start', hstart, h⟩ := bind_eq_ok.1 h
    obtain ⟨stop', hstop, h⟩ := bind_eq_ok.1 h
    obtain ⟨handler', hhandler, h⟩ := bind_eq_ok.1 h
    cases h
    exact ⟨labelAt_eq_ok.1 hstart, labelAt_eq_ok.1 hstop, labelAt_eq_ok.1 hhandler, rfl⟩
  · rintro ⟨hstart, hstop, hhandler, rfl⟩
    exact bind_eq_ok.2 ⟨_, labelAt_eq_ok.2 hstart, bind_eq_ok.2 ⟨_, labelAt_eq_ok.2 hstop,
      bind_eq_ok.2 ⟨_, labelAt_eq_ok.2 hhandler, rfl⟩⟩⟩

/-! ## Writing -/

/-- From a state, what is written leaves an answer and a state of which something holds, or a subroutine
cannot be expanded. -/
def Writes {α : Type} (e : Expansion) (x : Expand α) (post : α → Expansion → Prop) : Prop :=
  match x e with
  | .ok (a, e') => post a e'
  | .error err => ∃ i, err = .subroutine i

section Writes

variable {α β : Type} {e e' : Expansion} {x : Expand α} {post : α → Expansion → Prop}

theorem writes_pure {a : α} (h : post a e) : Writes e (pure a) post := h

theorem writes_throw (i : Nat) : Writes e (throw (.subroutine i) : Expand α) post := ⟨i, rfl⟩

theorem Writes.imp {post' : α → Expansion → Prop} (hx : Writes e x post)
    (h : ∀ a e', post a e' → post' a e') : Writes e x post' := by
  unfold Writes at hx ⊢
  split
  · rename_i hr
    rw [hr] at hx
    exact h _ _ hx
  · rename_i hr
    rw [hr] at hx
    exact hx

theorem Writes.bind {f : α → Expand β} {post' : β → Expansion → Prop} (hx : Writes e x post)
    (hf : ∀ a e', post a e' → Writes e' (f a) post') : Writes e (x >>= f) post' := by
  unfold Writes at hx
  have hbind : (x >>= f) e = (x e >>= fun r => f r.1 r.2) := rfl
  unfold Writes
  rw [hbind]
  generalize x e = r at hx
  cases r with
  | ok r => exact hf r.1 r.2 hx
  | error err => exact hx

/-- A loop over a list, in which the rest of the list takes part in the invariant. -/
theorem writes_foldlM {f : β → α → Expand β} (inv : List α → β → Expansion → Prop)
    (step : ∀ a rest b e, inv (a :: rest) b e → Writes e (f b a) (inv rest)) {xs : List α} {b : β}
    (h : inv xs b e) : Writes e (xs.foldlM f b) (inv []) := by
  induction xs generalizing b e with
  | nil => exact writes_pure h
  | cons a xs ih =>
    rw [List.foldlM_cons]
    exact (step a xs b e h).bind fun b' e' h' => ih h'

theorem writes_forM {f : α → Expand PUnit} (inv : List α → Expansion → Prop)
    (step : ∀ a rest e, inv (a :: rest) e → Writes e (f a) (fun _ e' => inv rest e')) {xs : List α}
    (h : inv xs e) : Writes e (xs.forM f) (fun _ e' => inv [] e') := by
  induction xs generalizing e with
  | nil => exact writes_pure h
  | cons a xs ih => exact (step a xs e h).bind fun _ e' h' => ih h'

end Writes

/-! ## Traces -/

/-- Where an instruction stems from: the number of an item, and what labels are called in the copy. -/
structure Origin where
  item : Nat
  scopes : Scopes

/-- What has been written, each instruction with its origin. Marks have none. -/
abbrev Trace := List (Insn × Option Origin)

inductive CopyOf : Item → Insn → Prop
  | insn {i : Insn} (f : Label → Label) : i.isPseudo = false → CopyOf (.insn i) (i.retarget f)
  | address (target : Label) : CopyOf (.jsr target) (.simple Op.aconstNull)
  | call (target l : Label) : CopyOf (.jsr target) (.jump Op.goto l)
  | back (slot : UInt16) (l : Label) : CopyOf (.ret slot) (.jump Op.goto l)

def Stems (items : List Item) (x : Insn × Option Nat) : Prop :=
  match x.2 with
  | none => x.1.isPseudo = true
  | some i => ∃ item, items[i]? = some item ∧ CopyOf item x.1

theorem stems_copy {items : List Item} {i : Nat} {item : Item} {insn : Insn} (hitem : items[i]? = some item)
    (h : CopyOf item insn) : Stems items (insn, some i) :=
  ⟨item, hitem, h⟩

namespace Trace

def source (x : Insn × Option Origin) : Option Nat :=
  x.2.map (·.item)

def placed (T : Trace) : List Label :=
  T.filterMap (·.1.placed)

def sources (T : Trace) : List Nat :=
  T.filterMap source

/-- Only marks are there. -/
def Silent (T : Trace) : Prop :=
  ∀ x ∈ T, x.2 = none

def Stands (T : Trace) (l : Label) (a : Nat) : Prop :=
  T[a]? = some (Insn.label l, none)

def Real (T : Trace) (n : Nat) (o : Origin) : Prop :=
  ∃ insn, T[n]? = some (insn, some o)

variable {T : Trace} {x : Insn × Option Origin} {l : Label} {a n : Nat} {o : Origin}

theorem Stands.append (h : T.Stands l a) (T' : Trace) : Stands (T ++ T') l a := by
  unfold Stands at h ⊢
  rwa [List.getElem?_append_left (List.getElem?_eq_some_iff.1 h).1]

theorem Stands.lt (h : T.Stands l a) : a < T.length :=
  (List.getElem?_eq_some_iff.1 h).1

theorem stands_end : Stands (T ++ [(Insn.label l, none)]) l T.length := by
  unfold Stands
  rw [List.getElem?_append_right (Nat.le_refl _), Nat.sub_self]
  rfl

theorem Real.append (h : T.Real n o) (T' : Trace) : Real (T ++ T') n o := by
  obtain ⟨insn, h⟩ := h
  exact ⟨insn, by rwa [List.getElem?_append_left (List.getElem?_eq_some_iff.1 h).1]⟩

theorem Real.lt (h : T.Real n o) : n < T.length := by
  obtain ⟨insn, h⟩ := h
  exact (List.getElem?_eq_some_iff.1 h).1

/-- What is real with one more instruction was so before, or it is that one. -/
theorem real_append : Real (T ++ [x]) n o ↔ T.Real n o ∨ (n = T.length ∧ x.2 = some o) := by
  constructor
  · rintro ⟨insn, h⟩
    rw [List.getElem?_append] at h
    split at h
    · exact .inl ⟨insn, h⟩
    · rename_i hn
      rw [List.getElem?_singleton] at h
      split at h
      · cases h
        exact .inr ⟨by omega, rfl⟩
      · cases h
  · rintro (h | ⟨rfl, h⟩)
    · exact h.append _
    · refine ⟨x.1, ?_⟩
      rw [List.getElem?_append_right (Nat.le_refl _), Nat.sub_self]
      exact congrArg some (Prod.ext rfl h)

end Trace

/-! ## Protected ranges -/

open Trace

/-- Between the labels of the range stands an instruction. -/
def Spans (T : Trace) (t : TryCatch) (n : Nat) : Prop :=
  ∃ a b, T.Stands t.start a ∧ T.Stands t.stop b ∧ a < n ∧ n < b

/-- A range made from a region: it catches what the region catches, it holds an instruction, and what it
holds stems from items that the region covers, in a copy that has this handler for it. -/
def Made (T : Trace) (r : Region) (t : TryCatch) : Prop :=
  t.catchType = r.entry.catchType ∧ ∃ a b, T.Stands t.start a ∧ T.Stands t.stop b ∧
    (∃ n i, a < n ∧ n < b ∧ T.Real n i) ∧ ∀ n i, a < n → n < b → T.Real n i →
      r.covers i.item = true ∧ t.handler = rename i.scopes r.entry.handler

/-- A range that was opened in a copy: behind its label stands only what the region covers, in this copy,
and if the range is in use, there is something. -/
def Opened (T : Trace) (scopes : Scopes) (r : Region) (start : Label) (used : Bool) : Prop :=
  ∃ a, T.Stands start a ∧ (used = true → ∃ n i, a < n ∧ T.Real n i) ∧
    ∀ n i, a < n → T.Real n i → r.covers i.item = true ∧ i.scopes = scopes

/-- How the region with a number stands: the ranges made from it, and the one that is open in a copy.
Everything that stems from items it covers is in one of them. -/
structure Standing (T : Trace) (scopes : Scopes) (k : Nat) (r : Region) (ranges : List (Nat × TryCatch))
    (opened : Option Label) (used : Bool) : Prop where
  made : ∀ t, (k, t) ∈ ranges → Made T r t
  begun : ∀ start, opened = some start → Opened T scopes r start used
  complete : ∀ n i, T.Real n i → r.covers i.item = true →
    (∃ t, (k, t) ∈ ranges ∧ Spans T t n) ∨ ∃ start a, opened = some start ∧ T.Stands start a ∧ a < n

section Standing

variable {T : Trace} {scopes : Scopes} {k : Nat} {r : Region} {ranges : List (Nat × TryCatch)}
  {o : Option Label} {used : Bool} {l : Label}

theorem Spans.append {t : TryCatch} {n : Nat} (h : Spans T t n) (T' : Trace) : Spans (T ++ T') t n := by
  obtain ⟨a, b, ha, hb, h⟩ := h
  exact ⟨a, b, ha.append _, hb.append _, h⟩

theorem Made.append {t : TryCatch} (h : Made T r t) (x : Insn × Option Origin) : Made (T ++ [x]) r t := by
  obtain ⟨hcatch, a, b, ha, hb, ⟨n, i, han, hnb, hn⟩, hall⟩ := h
  refine ⟨hcatch, a, b, ha.append _, hb.append _, ⟨n, i, han, hnb, hn.append _⟩, ?_⟩
  intro n i han hnb hn
  rcases real_append.1 hn with hn | ⟨rfl, -⟩
  · exact hall n i han hnb hn
  · exact absurd hnb (Nat.lt_asymm hb.lt)

/-- A mark changes nothing. -/
theorem Standing.mark (h : Standing T scopes k r ranges o used) (insn : Insn) :
    Standing (T ++ [(insn, none)]) scopes k r ranges o used where
  made t ht := (h.made t ht).append _
  begun start hstart := by
    obtain ⟨a, ha, hsome, hall⟩ := h.begun start hstart
    refine ⟨a, ha.append _, fun hu => ?_, fun n i han hn => ?_⟩
    · obtain ⟨n, i, han, hn⟩ := hsome hu
      exact ⟨n, i, han, hn.append _⟩
    · rcases real_append.1 hn with hn | ⟨-, he⟩
      · exact hall n i han hn
      · cases he
  complete n i hn hcovers := by
    rcases real_append.1 hn with hn | ⟨-, he⟩
    · rcases h.complete n i hn hcovers with ⟨t, ht, hspans⟩ | ⟨start, a, hstart, ha, han⟩
      · exact .inl ⟨t, ht, hspans.append _⟩
      · exact .inr ⟨start, a, hstart, ha.append _, han⟩
    · cases he

/-- A copied instruction, for which the range is open exactly if the region covers its item. -/
theorem Standing.real (h : Standing T scopes k r ranges o used) {i : Nat} (ho : o.isSome = r.covers i)
    (insn : Insn) : Standing (T ++ [(insn, some ⟨i, scopes⟩)]) scopes k r ranges o true where
  made t ht := (h.made t ht).append _
  begun start hstart := by
    obtain ⟨a, ha, -, hall⟩ := h.begun start hstart
    refine ⟨a, ha.append _, fun _ => ⟨T.length, _, ha.lt, real_append.2 (.inr ⟨rfl, rfl⟩)⟩, ?_⟩
    intro n j han hn
    rcases real_append.1 hn with hn | ⟨-, he⟩
    · exact hall n j han hn
    · cases he
      refine ⟨?_, rfl⟩
      rw [← ho, hstart]
      rfl
  complete n j hn hcovers := by
    rcases real_append.1 hn with hn | ⟨rfl, he⟩
    · rcases h.complete n j hn hcovers with ⟨t, ht, hspans⟩ | ⟨start, a, hstart, ha, han⟩
      · exact .inl ⟨t, ht, hspans.append _⟩
      · exact .inr ⟨start, a, hstart, ha.append _, han⟩
    · cases he
      rw [← ho] at hcovers
      obtain ⟨start, hstart⟩ := Option.isSome_iff_exists.1 hcovers
      obtain ⟨a, ha, -⟩ := h.begun start hstart
      exact .inr ⟨start, a, hstart, ha.append _, ha.lt⟩

/-- A range is opened at a label. -/
theorem Standing.opening (h : Standing T scopes k r ranges none used) (start : Label) :
    Standing (T ++ [(Insn.label start, none)]) scopes k r ranges (some start) false where
  made t ht := (h.made t ht).append _
  begun l hl := by
    cases hl
    refine ⟨T.length, stands_end, nofun, fun n i han hn => ?_⟩
    rcases real_append.1 hn with hn | ⟨-, he⟩
    · exact absurd han (Nat.lt_asymm hn.lt)
    · cases he
  complete n i hn hcovers := by
    rcases ((h.mark (.label start)).complete n i hn hcovers) with h | ⟨l, a, hl, -⟩
    · exact .inl h
    · cases hl

/-- A range that is in use is ended at a label. -/
theorem Standing.closing {start stop : Label} (h : Standing T scopes k r ranges (some start) true) :
    Standing (T ++ [(Insn.label stop, none)]) scopes k r
      (ranges ++ [(k, { r.entry with start, stop, handler := rename scopes r.entry.handler })])
      none true where
  made t ht := by
    rcases List.mem_append.1 ht with ht | ht
    · exact (h.made t ht).append _
    · cases List.mem_singleton.1 ht
      obtain ⟨a, ha, hsome, hall⟩ := h.begun start rfl
      obtain ⟨n, i, han, hn⟩ := hsome rfl
      refine ⟨rfl, a, T.length, ha.append _, stands_end, ⟨n, i, han, hn.lt, hn.append _⟩, ?_⟩
      intro n i han _ hn
      rcases real_append.1 hn with hn | ⟨-, he⟩
      · obtain ⟨hcovers, rfl⟩ := hall n i han hn
        exact ⟨hcovers, rfl⟩
      · cases he
  begun l hl := by cases hl
  complete n i hn hcovers := by
    rcases real_append.1 hn with hn | ⟨-, he⟩
    · rcases h.complete n i hn hcovers with ⟨t, ht, hspans⟩ | ⟨l, a, hl, ha, han⟩
      · exact .inl ⟨t, List.mem_append_left _ ht, hspans.append _⟩
      · cases hl
        exact .inl ⟨_, List.mem_append_right _ (List.mem_singleton_self _), a, T.length, ha.append _,
          stands_end, han, hn.lt⟩
    · cases he

/-- The ranges of other regions do not matter. -/
theorem Standing.others {k' : Nat} {t : TryCatch} (h : Standing T scopes k r ranges o used) (hk : k ≠ k') :
    Standing T scopes k r (ranges ++ [(k', t)]) o used where
  made t' ht := by
    rcases List.mem_append.1 ht with ht | ht
    · exact h.made t' ht
    · cases List.mem_singleton.1 ht
      exact absurd rfl hk
  begun := h.begun
  complete n i hn hcovers :=
    (h.complete n i hn hcovers).imp_left fun ⟨t', ht, hspans⟩ =>
      ⟨t', List.mem_append_left _ ht, hspans⟩

/-- If no range is open, it does not matter for which copy. -/
theorem Standing.rescope (h : Standing T scopes k r ranges none used) (scopes' : Scopes) :
    Standing T scopes' k r ranges none used :=
  ⟨h.made, nofun, h.complete⟩

theorem Standing.unused (h : Standing T scopes k r ranges o used) : Standing T scopes k r ranges o false where
  made := h.made
  begun start hstart := by
    obtain ⟨a, ha, -, hall⟩ := h.begun start hstart
    exact ⟨a, ha, nofun, hall⟩
  complete := h.complete

end Standing

/-! ## What is written -/

namespace Trace

/-- The labels that are given out: those that are placed and those that will be. -/
def issued (T : Trace) (pending : List Label) : List Label :=
  T.placed ++ pending

variable {T T' : Trace} {pending : List Label} {l : Label} {insn : Insn} {o : Option Origin}

theorem sources_append : (T ++ T').sources = T.sources ++ T'.sources :=
  List.filterMap_append

theorem Silent.sources (h : T.Silent) : T.sources = [] := by
  refine List.filterMap_eq_nil_iff.2 fun x hx => ?_
  rw [source, h x hx, Option.map_none]

theorem Silent.append (h : T.Silent) (h' : T'.Silent) : Silent (T ++ T') := fun x hx =>
  (List.mem_append.1 hx).elim (h x) (h' x)

theorem silent_mark : Silent [(insn, none)] := fun x hx => by
  cases List.mem_singleton.1 hx
  rfl

theorem placed_label : (T ++ [(Insn.label l, o)]).placed = T.placed ++ [l] := by
  unfold placed
  rw [List.filterMap_append]
  rfl

theorem placed_other (h : insn.placed = none) : (T ++ [(insn, o)]).placed = T.placed := by
  have hnone : List.filterMap (·.1.placed) [(insn, o)] = ([] : List Label) := by
    simp only [List.filterMap_cons, h, List.filterMap_nil]
  unfold placed
  rw [List.filterMap_append, hnone, List.append_nil]

theorem issued_label : (T ++ [(Insn.label l, o)]).issued pending = T.issued (l :: pending) := by
  unfold issued
  rw [placed_label, List.append_assoc]
  rfl

theorem issued_other (h : insn.placed = none) : (T ++ [(insn, o)]).issued pending = T.issued pending := by
  unfold issued
  rw [placed_other h]

theorem issued_cons (l : Label) : (T.issued (l :: pending)).Perm (l :: T.issued pending) :=
  List.perm_middle

theorem issued_fresh (T : Trace) (pending : List Label) (l : Label) :
    T.issued pending ⊆ (T ++ [(Insn.label l, none)]).issued pending := by
  rw [issued_label]
  exact fun _ hl => (issued_cons l).mem_iff.2 (List.mem_cons_of_mem _ hl)

theorem Stands.issued {a : Nat} (h : T.Stands l a) (pending : List Label) : l ∈ T.issued pending :=
  List.mem_append_left _ (List.mem_filterMap.2 ⟨_, List.mem_of_getElem? h, rfl⟩)

end Trace

def Program.labels (p : Program) : List Label :=
  p.items.toList.filterMap Item.placed

/-- What has been written so far: every label is placed once and below the next one, every label that is
named is placed or will be, and every instruction stems from where the trace says. -/
structure Written (p : Program) (T : Trace) (pending : List Label) (e : Expansion) : Prop where
  code : e.code.toList = T.map (·.1)
  nodup : (T.issued pending).Nodup
  below : ∀ l ∈ T.issued pending, l < e.next
  named : ∀ x ∈ T, ∀ l ∈ x.1.mentions, l ∈ T.issued pending
  ranges : ∀ x ∈ e.ranges.toList, ∀ l ∈ [x.2.start, x.2.stop, x.2.handler], l ∈ T.issued pending
  stems : ∀ x ∈ T, Stems p.items.toList (x.1, source x)

namespace Written

variable {p : Program} {T : Trace} {pending : List Label} {e : Expansion} {l : Label} {insn : Insn}
  {o : Option Origin}

theorem perm {pending' : List Label} (h : Written p T pending e) (hp : pending.Perm pending') :
    Written p T pending' e := by
  have hperm : (T.issued pending).Perm (T.issued pending') := hp.append_left _
  exact ⟨h.code, hperm.nodup_iff.1 h.nodup, fun l hl => h.below l (hperm.mem_iff.2 hl),
    fun x hx l hl => hperm.mem_iff.1 (h.named x hx l hl),
    fun x hx l hl => hperm.mem_iff.1 (h.ranges x hx l hl), h.stems⟩

/-- One more instruction that gives out no label. -/
theorem push (h : Written p T pending e) {pending' : List Label}
    (hissued : (T ++ [(insn, o)]).issued pending' = T.issued pending)
    (hnamed : ∀ l ∈ insn.mentions, l ∈ T.issued pending) (hstems : Stems p.items.toList (insn, source (insn, o))) :
    Written p (T ++ [(insn, o)]) pending' { e with code := e.code.push insn } where
  code := by
    rw [Array.toList_push, h.code, List.map_append]
    rfl
  nodup := hissued ▸ h.nodup
  below := hissued ▸ h.below
  named x hx l hl := by
    rw [hissued]
    rcases List.mem_append.1 hx with hx | hx
    · exact h.named x hx l hl
    · cases List.mem_singleton.1 hx
      exact hnamed l hl
  ranges := hissued ▸ h.ranges
  stems x hx := by
    rcases List.mem_append.1 hx with hx | hx
    · exact h.stems x hx
    · cases List.mem_singleton.1 hx
      exact hstems

/-- A label that was given out is placed. -/
theorem label (h : Written p T (l :: pending) e) :
    Written p (T ++ [(Insn.label l, none)]) pending { e with code := e.code.push (.label l) } :=
  h.push issued_label (fun _ hl => absurd hl List.not_mem_nil) rfl

/-- Any other instruction. -/
theorem other (h : Written p T pending e) (hplaced : insn.placed = none)
    (hnamed : ∀ l ∈ insn.mentions, l ∈ T.issued pending) (hstems : Stems p.items.toList (insn, source (insn, o))) :
    Written p (T ++ [(insn, o)]) pending { e with code := e.code.push insn } :=
  h.push (issued_other hplaced) hnamed hstems

/-- A new label is given out. -/
theorem fresh (h : Written p T pending e) :
    Written p T (e.next :: pending) { e with next := e.next + 1 } := by
  have hperm : (T.issued (e.next :: pending)).Perm (e.next :: T.issued pending) := issued_cons e.next
  have hsub : ∀ l ∈ T.issued pending, l ∈ T.issued (e.next :: pending) := fun l hl =>
    hperm.mem_iff.2 (List.mem_cons_of_mem _ hl)
  refine ⟨h.code, ?_, fun l hl => ?_, fun x hx l hl => hsub l (h.named x hx l hl),
    fun x hx l hl => hsub l (h.ranges x hx l hl), h.stems⟩
  · rw [hperm.nodup_iff, List.nodup_cons]
    exact ⟨fun hmem => Nat.lt_irrefl _ (h.below _ hmem), h.nodup⟩
  · rcases List.mem_cons.1 (hperm.mem_iff.1 hl) with rfl | hl
    · exact Nat.lt_succ_self _
    · exact Nat.lt_succ_of_lt (h.below l hl)

/-- A range is recorded. -/
theorem record (h : Written p T pending e) {k : Nat} {t : TryCatch}
    (ht : ∀ l ∈ [t.start, t.stop, t.handler], l ∈ T.issued pending) :
    Written p T pending { e with ranges := e.ranges.push (k, t) } where
  code := h.code
  nodup := h.nodup
  below := h.below
  named := h.named
  ranges x hx l hl := by
    rw [Array.toList_push] at hx
    rcases List.mem_append.1 hx with hx | hx
    · exact h.ranges x hx l hl
    · cases List.mem_singleton.1 hx
      exact ht l hl
  stems := h.stems

end Written

/-- Between two states only labels were placed, and ranges only of the regions with the given numbers
were recorded. -/
structure Noted (p : Program) (pending : List Label) (ks : List Nat) (T : Trace) (e : Expansion)
    (T' : Trace) (e' : Expansion) : Prop where
  written : Written p T' pending e'
  appended : ∃ W : Trace, T' = T ++ W ∧ W.Silent
  issued : T.issued pending ⊆ T'.issued pending
  others : ∀ scopes k r o used, k ∉ ks → Standing T scopes k r e.ranges.toList o used →
    Standing T' scopes k r e'.ranges.toList o used

section Noted

variable {p : Program} {pending : List Label} {ks ks' : List Nat} {T T' T'' : Trace}
  {e e' e'' : Expansion}

theorem Noted.refl (h : Written p T pending e) : Noted p pending ks T e T e :=
  ⟨h, ⟨[], (List.append_nil T).symm, nofun⟩, List.Subset.refl _, fun _ _ _ _ _ _ hs => hs⟩

theorem Noted.trans (h : Noted p pending ks T e T' e') (h' : Noted p pending ks' T' e' T'' e'') :
    Noted p pending (ks ++ ks') T e T'' e'' where
  written := h'.written
  appended := by
    obtain ⟨W, rfl, hW⟩ := h.appended
    obtain ⟨W', rfl, hW'⟩ := h'.appended
    exact ⟨W ++ W', List.append_assoc .., hW.append hW'⟩
  issued := List.Subset.trans h.issued h'.issued
  others scopes k r o used hk hs := by
    rw [List.mem_append, not_or] at hk
    exact h'.others scopes k r o used hk.2 (h.others scopes k r o used hk.1 hs)

/-- What a label is called in a copy is given out, for every label that the items place. -/
def Knows (p : Program) (issued : List Label) (scopes : Scopes) : Prop :=
  ∀ l ∈ p.labels, rename scopes l ∈ issued

variable {scopes : Scopes} {k : Nat} {r : Region}

/-- A range that is in use is ended. -/
theorem close_writes (h : Written p T pending e) {start : Label}
    (hs : Standing T scopes k r e.ranges.toList (some start) true)
    (hhandler : rename scopes r.entry.handler ∈ T.issued pending) :
    Writes e (close scopes k r start) fun _ e' => ∃ T', Noted p pending [k] T e T' e' ∧
      Standing T' scopes k r e'.ranges.toList none true := by
  obtain ⟨a, ha, -⟩ := hs.begun start rfl
  have hlabel := h.fresh.label
  have grown := issued_fresh T pending e.next
  refine ⟨T ++ [(Insn.label e.next, none)], ⟨hlabel.record (k := k) fun l hl => ?_, ⟨_, rfl, silent_mark⟩, grown, ?_⟩, ?_⟩
  · simp only [List.mem_cons, List.not_mem_nil, or_false] at hl
    rcases hl with rfl | rfl | rfl
    · exact (ha.append _).issued _
    · exact stands_end.issued _
    · exact grown hhandler
  · intro scopes' k' r' o used hk hs'
    rw [List.mem_singleton] at hk
    change Standing _ scopes' k' r' (e.ranges.push _).toList o used
    rw [Array.toList_push]
    exact (hs'.mark _).others hk
  · change Standing _ scopes k r (e.ranges.push _).toList none true
    rw [Array.toList_push]
    exact hs.closing

/-- A range is opened. -/
theorem open_writes (h : Written p T pending e) (hs : Standing T scopes k r e.ranges.toList none true) :
    Writes e (do
      let start ← fresh
      emit (.label start)
      return some start) fun o e' => ∃ T', Noted p pending [k] T e T' e' ∧
      Standing T' scopes k r e'.ranges.toList o false ∧ o.isSome = true := by
  have grown := issued_fresh T pending e.next
  exact ⟨T ++ [(Insn.label e.next, none)], ⟨h.fresh.label, ⟨_, rfl, silent_mark⟩, grown,
    fun _ _ _ _ _ _ hs' => hs'.mark _⟩, hs.opening _, rfl⟩

/-- The first half of `cross`: a range that must not go on is ended. -/
def cut (scopes : Scopes) (gap inside : Bool) (number : Nat) (r : Region) :
    Option Label → Expand (Option Label)
  | none => pure none
  | some start =>
    if gap || !inside then do
      close scopes number r start
      pure none
    else pure (some start)

theorem cross_eq (scopes : Scopes) (gap : Bool) (i k : Nat) (r : Region) (o : Option Label) :
    cross scopes gap i k r o = (do
      let opened ← cut scopes gap (r.covers i) k r o
      if r.covers i && opened.isNone then do
        let start ← fresh
        emit (.label start)
        return some start
      else return opened) := by
  cases o with
  | none => simp only [cross, cut]
  | some start =>
    unfold cross cut
    dsimp only
    by_cases h : (gap || !r.covers i) = true
    · rw [if_pos h, if_pos h, bind_assoc]
    · rw [if_neg h, if_neg h]

theorem cut_writes (h : Written p T pending e) {o : Option Label}
    (hs : Standing T scopes k r e.ranges.toList o true)
    (hhandler : rename scopes r.entry.handler ∈ T.issued pending) (gap inside : Bool) :
    Writes e (cut scopes gap inside k r o) fun o' e' => ∃ T', Noted p pending [k] T e T' e' ∧
      Standing T' scopes k r e'.ranges.toList o' true ∧ (o'.isSome = true → inside = true) := by
  cases o with
  | none => exact ⟨T, .refl h, hs, nofun⟩
  | some start =>
    unfold cut
    dsimp only
    by_cases hgo : (gap || !inside) = true
    · rw [if_pos hgo]
      exact (close_writes h hs hhandler).bind fun _ e' ⟨T', hT', hs'⟩ =>
        writes_pure ⟨T', hT', hs', nofun⟩
    · rw [if_neg hgo]
      rw [Bool.or_eq_true, not_or, Bool.not_eq_true', Bool.not_eq_false] at hgo
      exact ⟨T, .refl h, hs, fun _ => hgo.2⟩

/-- In front of the copy of an instruction, a range is open exactly if it covers the instruction. -/
theorem cross_writes (h : Written p T pending e) {o : Option Label}
    (hs : Standing T scopes k r e.ranges.toList o true)
    (hhandler : rename scopes r.entry.handler ∈ T.issued pending) (gap : Bool) (i : Nat) :
    Writes e (cross scopes gap i k r o) fun o' e' => ∃ T', Noted p pending [k] T e T' e' ∧
      Standing T' scopes k r e'.ranges.toList o' false ∧ o'.isSome = r.covers i := by
  rw [cross_eq]
  refine (cut_writes h hs hhandler gap (r.covers i)).bind fun o' e' ⟨T', hT', hs', ho'⟩ => ?_
  by_cases hopen : (r.covers i && o'.isNone) = true
  · rw [if_pos hopen]
    rw [Bool.and_eq_true, Option.isNone_iff_eq_none] at hopen
    obtain ⟨hcovers, rfl⟩ := hopen
    refine (open_writes hT'.written hs').imp fun o'' e'' ⟨T'', hT'', hs'', ho''⟩ => ?_
    have htrans := hT'.trans hT''
    exact ⟨T'', ⟨htrans.written, htrans.appended, htrans.issued,
      fun scopes' k' r' o used hk => htrans.others scopes' k' r' o used (by simpa using hk)⟩, hs'',
      ho''.trans hcovers.symm⟩
  · rw [if_neg hopen]
    refine ⟨T', hT', hs'.unused, ?_⟩
    cases o' with
    | some start => exact (ho' rfl).symm
    | none =>
      rw [Option.isNone_none, Bool.and_true, Bool.not_eq_true] at hopen
      exact hopen.symm

end Noted

end Subroutine

end Interpose

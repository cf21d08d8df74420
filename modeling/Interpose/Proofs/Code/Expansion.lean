import Interpose.Proofs.Code.Copying
import Interpose.Proofs.Pieces
/-!
# Expanding subroutines

A copy of the items is written one item after the other, each as a `Piece`. In between, what is written is
told apart from what is still to come (`Underway`), and one step passes from one item to the next
(`Underway.step`). So a copy is its pieces, and asks for a copy of whatever it calls (`writeCopy_writes`);
calls are followed as deep as they nest (`writeNested_writes`), and that is the whole of the code
(`Sound.expands`).
-/

namespace Interpose

namespace Item

def width : Item → Nat
  | insn i => if i.isPseudo then 0 else 1
  | jsr _ => 2
  | ret _ => 1

def callee : Item → Option Label
  | jsr target => some target
  | insn _ | ret _ => none

end Item

namespace Subroutine

namespace Program

def numbered (p : Program) : List (Item × Nat) :=
  p.items.toList.zipIdx

/-- The number of an item, once for each instruction that a copy has of it. -/
def copied (members : Members) (x : Item × Nat) : List Nat :=
  if members.has x.2 then List.replicate x.1.width x.2 else []

def called (p : Program) (members : Members) (x : Item × Nat) : Option Nat :=
  if members.has x.2 then x.1.callee.bind (p.positions[·]?) else none

/-- The items that the instructions of a copy, and of the copies of everything it calls, stem from. -/
def sources (p : Program) (main : Members) : (nesting : Nat) → Members → List Nat
  | 0, members => p.numbered.flatMap (copied members)
  | nesting + 1, members =>
    p.numbered.flatMap (copied members) ++
      (p.numbered.filterMap (p.called members)).flatMap fun entry =>
        p.sources main nesting (p.members main entry)

/-- The labels are placed once, where they are looked up, and what is named is placed. -/
structure Sound (p : Program) : Prop where
  nodup : p.labels.Nodup
  place : ∀ l k, p.positions[l]? = some k ↔ p.items.toList[k]? = some (Item.insn (.label l))
  mentions : ∀ x ∈ p.items.toList, ∀ l ∈ x.mentions, l ∈ p.labels
  handlers : ∀ r ∈ p.regions, p.items.toList[r.handler]? = some (Item.insn (.label r.entry.handler))

theorem Sound.known {p : Program} (h : p.Sound) {l : Label} (hl : l ∈ p.labels) :
    ∃ k, p.positions[l]? = some k := by
  obtain ⟨x, hx, hplaced⟩ := List.mem_filterMap.1 hl
  obtain ⟨k, hk⟩ := List.mem_iff_getElem?.1 hx
  exact ⟨k, (h.place l k).2 (Item.placed_eq_some.1 hplaced ▸ hk)⟩

theorem Sound.handler_mem {p : Program} (h : p.Sound) {r : Region} (hr : r ∈ p.regions) :
    r.entry.handler ∈ p.labels :=
  List.mem_filterMap.2 ⟨_, List.mem_of_getElem? (h.handlers r hr), rfl⟩

/-- The property holds of every region, with its number and the range that is open for it. -/
def Each (p : Program) (opened : List (Option Label)) (P : Nat → Region → Option Label → Prop) : Prop :=
  opened.length = p.regions.length ∧
    ∀ k r o, p.regions[k]? = some r → opened[k]? = some o → P k r o

theorem Each.imp {p : Program} {opened : List (Option Label)} {P Q : Nat → Region → Option Label → Prop}
    (h : p.Each opened P) (hPQ : ∀ k r o, P k r o → Q k r o) : p.Each opened Q :=
  ⟨h.1, fun k r o hr ho => hPQ k r o (h.2 k r o hr ho)⟩

end Program

def Copy.label (c : Copy) (x : Item × Nat) : Option Label :=
  if c.members.has x.2 || c.isMain then x.1.placed.map (rename c.scopes) else none

open Trace

/-! ## In front of an instruction -/

section Crossing

variable {p : Program} {c : Copy} {scopes : Scopes} {T : Trace} {pending : List Label} {e : Expansion}
  {s : Progress}

theorem mem_numbered_zip {regions : List Region} {opened : List (Option Label)}
    {x : (Region × Option Label) × Nat} (hx : x ∈ (regions.zip opened).zipIdx) :
    regions[x.2]? = some x.1.1 ∧ opened[x.2]? = some x.1.2 :=
  List.getElem?_zip_eq_some.1 (List.mem_zipIdx_iff_getElem?.1 hx)

theorem nodup_numbers {α : Type} (xs : List α) : (xs.zipIdx.map (·.2)).Nodup := by
  rw [List.zipIdx_map_snd]
  exact List.nodup_range'

/-- What is noted of one region leaves the others as they stand. -/
theorem Noted.keeps {k : Nat} {T' : Trace} {e' : Expansion} {xs : List ((Region × Option Label) × Nat)}
    (h : Noted p pending [k] T e T' e') (hk : k ∉ xs.map (·.2))
    (hs : ∀ x ∈ xs, Standing T scopes x.2 x.1.1 e.ranges.toList x.1.2 true) :
    ∀ x ∈ xs, Standing T' scopes x.2 x.1.1 e'.ranges.toList x.1.2 true := by
  intro x hx
  refine h.others _ _ _ _ _ (fun hmem => hk ?_) (hs x hx)
  rw [← List.mem_singleton.1 hmem]
  exact List.mem_map_of_mem hx

/-- In front of the copy of an instruction, region by region. -/
theorem crosses_write {gap : Bool} {i : Nat} {xs : List ((Region × Option Label) × Nat)}
    (h : Written p T pending e) (hnum : (xs.map (·.2)).Nodup)
    (hs : ∀ x ∈ xs, Standing T c.scopes x.2 x.1.1 e.ranges.toList x.1.2 true)
    (hhandler : ∀ x ∈ xs, rename c.scopes x.1.1.entry.handler ∈ T.issued pending) :
    Writes e (xs.mapM fun x => cross c.scopes gap i x.2 x.1.1 x.1.2) fun os e' => ∃ T',
      Noted p pending (xs.map (·.2)) T e T' e' ∧
      List.Forall₂ (fun x o => Standing T' c.scopes x.2 x.1.1 e'.ranges.toList o false ∧
        o.isSome = x.1.1.covers i) xs os := by
  induction xs generalizing T e with
  | nil =>
    rw [List.mapM_nil]
    exact writes_pure ⟨T, .refl h, .nil⟩
  | cons x xs ih =>
    rw [List.map_cons, List.nodup_cons] at hnum
    rw [List.mapM_cons]
    refine (cross_writes h (hs x (List.mem_cons_self ..)) (hhandler x (List.mem_cons_self ..)) gap i).bind
      fun o e' ⟨T', hT', hs', ho⟩ => ?_
    have later := hT'.keeps hnum.1 fun y hy => hs y (List.mem_cons_of_mem _ hy)
    refine (ih hT'.written hnum.2 later fun y hy => hT'.issued (hhandler y (List.mem_cons_of_mem _ hy))).bind
      fun os e'' ⟨T'', hT'', hos⟩ => writes_pure ⟨T'', hT'.trans hT'', .cons ⟨?_, ho⟩ hos⟩
    exact hT''.others _ _ _ _ _ hnum.1 hs'

/-- In front of the copy of an instruction the open ranges are those that cover it. -/
def Ready (p : Program) (scopes : Scopes) (T : Trace) (e : Expansion) (i : Nat)
    (opened : List (Option Label)) (used : Bool) : Prop :=
  p.Each opened fun k r o => Standing T scopes k r e.ranges.toList o used ∧ o.isSome = r.covers i

theorem crossAll_writes (h : Written p T pending e) {i : Nat}
    (hs : p.Each s.opened fun k r o => Standing T c.scopes k r e.ranges.toList o true)
    (hhandler : ∀ r ∈ p.regions, rename c.scopes r.entry.handler ∈ T.issued pending) :
    Writes e (crossAll p c i s) fun s' e' => s'.calls = s.calls ∧ ∃ W : Trace, W.Silent ∧
      Written p (T ++ W) pending e' ∧ T.issued pending ⊆ (T ++ W).issued pending ∧
      Ready p c.scopes (T ++ W) e' i s'.opened false := by
  have hcross : Writes e ((p.regions.zip s.opened).zipIdx.mapM fun x =>
      cross c.scopes s.gap i x.2 x.1.1 x.1.2) _ :=
    crosses_write h (nodup_numbers _)
      (fun x hx => hs.2 _ _ _ (mem_numbered_zip hx).1 (mem_numbered_zip hx).2)
      fun x hx => hhandler _ (List.mem_of_getElem? (mem_numbered_zip hx).1)
  refine hcross.bind fun os e' ⟨T', hT', hos⟩ => ?_
  obtain ⟨W, rfl, hW⟩ := hT'.appended
  refine writes_pure ⟨rfl, W, hW, hT'.written, hT'.issued, ?_, ?_⟩
  · rw [← hos.length_eq, List.length_zipIdx, List.length_zip, hs.1, Nat.min_self]
  · intro k r o hr ho
    have hk : k < s.opened.length := hs.1 ▸ (List.getElem?_eq_some_iff.1 hr).1
    have hzip : (p.regions.zip s.opened)[k]? = some (r, s.opened[k]) :=
      List.getElem?_zip_eq_some.2 ⟨hr, List.getElem?_eq_getElem hk⟩
    have hx : (p.regions.zip s.opened).zipIdx[k]? = some ((r, s.opened[k]), k) := by
      rw [List.getElem?_zipIdx, hzip, Option.map_some, Nat.zero_add]
    obtain ⟨o', ho', h⟩ := forall₂_getElem? hos hx
    cases ho.symm.trans ho'
    exact h

end Crossing

/-! ## The copy of an item -/

/-- What an item that is no mark is written as in a copy, and the call that it is. -/
inductive Rendered (p : Program) (c : Copy) (i : Nat) : Item → Option Call → Trace → Prop
  | insn {insn : Insn} : insn.isPseudo = false →
    Rendered p c i (.insn insn) none [(insn.retarget (rename c.scopes), some ⟨i, c.scopes⟩)]
  | jsr {target : Label} {call : Call} : p.positions[target]? = some call.entryIndex →
    Rendered p c i (.jsr target) (some call)
      [(.simple Op.aconstNull, some ⟨i, c.scopes⟩), (.jump Op.goto call.entry, some ⟨i, c.scopes⟩),
        (.label call.back, none)]
  | ret {slot : UInt16} {back : Label} : c.back = some back →
    Rendered p c i (.ret slot) none [(.jump Op.goto back, some ⟨i, c.scopes⟩)]

/-- What an item is written as in a copy: nothing, a mark, or marks in front of what it is rendered as. -/
inductive Piece (p : Program) (c : Copy) : Item × Nat → Option Call → Trace → Prop
  | skipped {x : Item × Nat} : c.members.has x.2 = false → Piece p c x none []
  | label {l : Label} {i : Nat} : Piece p c (.insn (.label l), i) none [(.label (rename c.scopes l), none)]
  | line {n : UInt16} {i : Nat} : Piece p c (.insn (.line n), i) none [(.line n, none)]
  | real {x : Item × Nat} {call : Option Call} {W U : Trace} : c.members.has x.2 = true → W.Silent →
    Rendered p c x.2 x.1 call U → Piece p c x call (W ++ U)

section Items

variable {α : Type} {p : Program} {c : Copy} {T U : Trace} {pending : List Label} {e : Expansion}
  {s : Progress} {i : Nat} {item : Item} {x : Item × Nat} {insn : Insn} {opened : List (Option Label)}
  {used : Bool} {call : Option Call}

theorem copied_of_isPseudo {members : Members} (h : x.1.isPseudo = true) :
    Program.copied members x = [] := by
  obtain ⟨item, i⟩ := x
  cases item with
  | insn insn =>
    have hwidth : (Item.insn insn).width = 0 := if_pos h
    unfold Program.copied
    simp only [hwidth, List.replicate_zero, ite_self]
  | jsr _ | ret _ => cases h

theorem called_of_isPseudo {members : Members} (h : x.1.isPseudo = true) : p.called members x = none := by
  obtain ⟨item, i⟩ := x
  cases item with
  | insn insn => exact ite_self _
  | jsr _ | ret _ => cases h

theorem Rendered.sources (h : Rendered p c i item call U) : U.sources = List.replicate item.width i := by
  cases h with
  | insn hpseudo =>
    rw [Item.width, if_neg (Bool.eq_false_iff.1 hpseudo)]
    rfl
  | jsr _ | ret _ => rfl

theorem Rendered.callee (h : Rendered p c i item call U) :
    call.map (·.entryIndex) = item.callee.bind (p.positions[·]?) := by
  cases h with
  | insn _ | ret _ => rfl
  | jsr hk => exact hk.symm

theorem Piece.sources (h : Piece p c x call U) : U.sources = Program.copied c.members x := by
  cases h with
  | skipped hx => exact (if_neg (Bool.eq_false_iff.1 hx)).symm
  | label | line => rw [silent_mark.sources, copied_of_isPseudo rfl]
  | real hx hW h => rw [sources_append, hW.sources, h.sources, List.nil_append, Program.copied, if_pos hx]

theorem Piece.callee (h : Piece p c x call U) : call.map (·.entryIndex) = p.called c.members x := by
  cases h with
  | skipped hx => exact (if_neg (Bool.eq_false_iff.1 hx)).symm
  | label | line => rw [called_of_isPseudo rfl, Option.map_none]
  | real hx hW h => rw [h.callee, Program.called, if_pos hx]

theorem writes_emit {f : Unit → Expand α} {post : α → Expansion → Prop}
    (h : Writes { e with code := e.code.push insn } (f ()) post) : Writes e (emit insn >>= f) post := h

theorem writes_fresh {f : Label → Expand α} {post : α → Expansion → Prop}
    (h : Writes { e with next := e.next + 1 } (f e.next) post) : Writes e (fresh >>= f) post := h

theorem writes_lift {β : Type} {x : Except CodeError β} {b : β} {f : β → Expand α}
    {post : α → Expansion → Prop} (hx : x = .ok b) (h : Writes e (f b) post) :
    Writes e ((liftM x : Expand β) >>= f) post := by
  subst hx
  exact h

theorem Ready.real (h : Ready p c.scopes T e i opened used) (insn : Insn) :
    Ready p c.scopes (T ++ [(insn, some ⟨i, c.scopes⟩)]) { e with code := e.code.push insn } i opened true :=
  h.imp fun _ _ _ ⟨hs, ho⟩ => ⟨hs.real ho insn, ho⟩

theorem copyItem_insn (h : insn.placed = none) : copyItem p c i (.insn insn) s = (do
    emit (insn.retarget (rename c.scopes))
    return s) := by
  cases insn <;> first | rfl | cases h

structure Copied (p : Program) (c : Copy) (T : Trace) (pending : List Label) (s : Progress) (item : Item)
    (i : Nat) (U : Trace) (call : Option Call) (s' : Progress) (e' : Expansion) : Prop where
  opened : s'.opened = s.opened
  calls : s'.calls = call.toList ++ s.calls
  rendered : Rendered p c i item call U
  written : Written p (T ++ U) (call.toList.map (·.entry) ++ pending) e'
  ready : Ready p c.scopes (T ++ U) e' i s.opened true
  issued : T.issued pending ⊆ (T ++ U).issued (call.toList.map (·.entry) ++ pending)
  backs : ∀ x ∈ call, x.back ∈ (T ++ U).issued (call.toList.map (·.entry) ++ pending)

/-- One instruction that gives out no label. -/
theorem copied_one (h : Written p T pending e) (hready : Ready p c.scopes T e i s.opened used)
    (hplaced : insn.placed = none) (hnamed : ∀ l ∈ insn.mentions, l ∈ T.issued pending)
    (hstems : Stems p.items.toList (insn, some i))
    (hrendered : Rendered p c i item none [(insn, some ⟨i, c.scopes⟩)]) :
    Copied p c T pending s item i [(insn, some ⟨i, c.scopes⟩)] none s
      { e with code := e.code.push insn } where
  opened := rfl
  calls := rfl
  rendered := hrendered
  written := h.other hplaced hnamed hstems
  ready := hready.real insn
  issued := by
    change T.issued pending ⊆ Trace.issued _ pending
    rw [issued_other hplaced]
    exact List.Subset.refl _
  backs := nofun

/-- A call: the entry is a new label, and the label behind the call is placed. -/
theorem copied_call {target : Label} {k : Nat} (h : Written p T pending e)
    (hready : Ready p c.scopes T e i s.opened used) (hitem : p.items.toList[i]? = some (.jsr target))
    (hk : p.positions[target]? = some k) :
    Copied p c T pending s (.jsr target) i
      [(.simple Op.aconstNull, some ⟨i, c.scopes⟩), (.jump Op.goto e.next, some ⟨i, c.scopes⟩),
        (.label (e.next + 1), none)]
      (some ⟨k, e.next, e.next + 1⟩) { s with calls := ⟨k, e.next, e.next + 1⟩ :: s.calls }
      { next := e.next + 1 + 1
        code := ((e.code.push (.simple Op.aconstNull)).push (.jump Op.goto e.next)).push (.label (e.next + 1))
        ranges := e.ranges } := by
  have hsplit : T ++ [(Insn.simple Op.aconstNull, some (⟨i, c.scopes⟩ : Origin)),
        (.jump Op.goto e.next, some ⟨i, c.scopes⟩), (.label (e.next + 1), none)] =
      T ++ [(Insn.simple Op.aconstNull, some ⟨i, c.scopes⟩)] ++ [(Insn.jump Op.goto e.next, some ⟨i, c.scopes⟩)]
        ++ [(Insn.label (e.next + 1), none)] := by
    simp only [List.append_assoc, List.cons_append, List.nil_append]
  refine ⟨rfl, rfl, .jsr hk, ?_, ?_, ?_, ?_⟩ <;> rw [hsplit]
  · refine ((h.fresh.fresh.other rfl (fun _ hl => ?_) (stems_copy hitem (.address target))).other rfl
      (fun l hl => ?_) (stems_copy hitem (.call target e.next))).label
    · exact absurd hl List.not_mem_nil
    cases List.mem_singleton.1 hl
    exact List.mem_append_right _ (List.mem_cons_of_mem _ (List.mem_cons_self ..))
  · have hreal := (hready.real (.simple Op.aconstNull)).real (.jump Op.goto e.next)
    exact hreal.imp fun _ _ _ ⟨hs, ho⟩ => ⟨hs.mark _, ho⟩
  · intro l hl
    rw [issued_label, issued_other rfl, issued_other rfl]
    exact (issued_cons _).mem_iff.2 (List.mem_cons_of_mem _ ((issued_cons _).mem_iff.2
      (List.mem_cons_of_mem _ hl)))
  · rintro _ ⟨⟩
    exact stands_end.issued _

theorem copyItem_writes (hp : p.Sound) (hitem : p.items.toList[i]? = some item)
    (hpseudo : item.isPseudo = false) (h : Written p T pending e) (hready : Ready p c.scopes T e i s.opened used)
    (hknows : Knows p (T.issued pending) c.scopes)
    (hback : ∀ back, c.back = some back → back ∈ T.issued pending) :
    Writes e (copyItem p c i item s) fun s' e' => ∃ U call, Copied p c T pending s item i U call s' e' := by
  cases item with
  | insn insn =>
    have hplaced : insn.placed = none := by
      cases insn <;> first | rfl | cases hpseudo
    rw [copyItem_insn hplaced]
    refine writes_emit (writes_pure ⟨_, none, copied_one h hready ?_ ?_ (stems_copy hitem (.insn _ hpseudo))
      (.insn hpseudo)⟩)
    · cases insn <;> first | rfl | cases hpseudo
    · intro l hl
      rw [Insn.mentions_retarget] at hl
      obtain ⟨l', hl', rfl⟩ := List.mem_map.1 hl
      exact hknows l' (hp.mentions _ (List.mem_of_getElem? hitem) l' hl')
  | ret slot =>
    unfold copyItem
    dsimp only
    cases hc : c.back with
    | none => exact writes_throw i
    | some back =>
      refine writes_emit (writes_pure ⟨_, none, copied_one h hready rfl ?_
        (stems_copy hitem (.back slot back)) (.ret hc)⟩)
      intro l hl
      cases List.mem_singleton.1 hl
      exact hback back hc
  | jsr target =>
    obtain ⟨k, hk⟩ := hp.known
      (hp.mentions _ (List.mem_of_getElem? hitem) target (List.mem_singleton_self _))
    refine writes_fresh (writes_fresh (writes_emit (writes_emit (writes_emit
      (writes_lift (labelAt_eq_ok.2 hk) (writes_pure ?_))))))
    exact ⟨_, _, copied_call h hready hitem hk⟩

end Items

/-! ## One copy -/

section Whole

variable {p : Program} {c : Copy} {T T₀ : Trace} {pending base issued : List Label} {e : Expansion}
  {s : Progress} {x : Item × Nat} {rest : List (Item × Nat)} {calls : List Call}

theorem Item.placed_of_isPseudo {item : Item} (h : item.isPseudo = false) : item.placed = none := by
  cases item with
  | insn insn => cases insn <;> first | rfl | cases h
  | jsr _ | ret _ => rfl

namespace Copy

/-- The labels that are still to be placed while a copy is written: those of the items ahead, the entries
of the calls met so far, and those that wait for later. -/
def ahead (c : Copy) (rest : List (Item × Nat)) (calls : List Call) (base : List Label) : List Label :=
  rest.filterMap c.label ++ (calls.reverse.map (·.entry) ++ base)

theorem ahead_none (h : c.label x = none) : c.ahead (x :: rest) calls base = c.ahead rest calls base := by
  unfold ahead
  rw [List.filterMap_cons_none h]

theorem ahead_some {l : Label} (h : c.label x = some l) :
    c.ahead (x :: rest) calls base = l :: c.ahead rest calls base := by
  unfold ahead
  rw [List.filterMap_cons_some h]
  rfl

theorem ahead_calls (new : List Call) :
    (new.map (·.entry) ++ c.ahead rest calls base).Perm (c.ahead rest (new ++ calls) base) := by
  refine List.perm_iff_count.2 fun l => ?_
  simp only [ahead, List.count_append, List.map_append, List.reverse_append, List.map_reverse,
    List.count_reverse]
  omega

end Copy

abbrev Pieces (p : Program) (c : Copy) (xs : List (Item × Nat)) (pieces : List (Option Call × Trace)) : Prop :=
  List.Forall₂ (fun x y => Piece p c x y.1 y.2) xs pieces

theorem Pieces.sources {xs : List (Item × Nat)} {pieces : List (Option Call × Trace)}
    (h : Pieces p c xs pieces) :
    Trace.sources (pieces.flatMap (·.2)) = xs.flatMap (Program.copied c.members) := by
  induction h with
  | nil => rfl
  | cons hx _ ih => rw [List.flatMap_cons, List.flatMap_cons, sources_append, hx.sources, ih]

theorem Pieces.callees {xs : List (Item × Nat)} {pieces : List (Option Call × Trace)}
    (h : Pieces p c xs pieces) :
    (pieces.filterMap (·.1)).map (·.entryIndex) = xs.filterMap (p.called c.members) := by
  rw [List.map_filterMap]
  induction h with
  | nil => rfl
  | cons hx _ ih => rw [List.filterMap_cons, List.filterMap_cons, hx.callee, ih]

/-- What has been written of a copy, behind what was there before. -/
structure Sofar (p : Program) (c : Copy) (T₀ : Trace) (done : List (Item × Nat)) (calls : List Call)
    (pieces : List (Option Call × Trace)) (T : Trace) : Prop where
  renders : Pieces p c done pieces
  trace : T = T₀ ++ pieces.flatMap (·.2)
  asks : calls.reverse = pieces.filterMap (·.1)

theorem Sofar.next {done : List (Item × Nat)} {pieces : List (Option Call × Trace)} {call : Option Call}
    {U : Trace} (h : Sofar p c T₀ done calls pieces T) (hx : Piece p c x call U) :
    Sofar p c T₀ (done ++ [x]) (call.toList ++ calls) (pieces ++ [(call, U)]) (T ++ U) where
  renders := List.rel_append h.renders (.cons hx .nil)
  trace := by
    rw [h.trace, List.flatMap_append, List.append_assoc, List.flatMap_singleton]
  asks := by
    rw [List.reverse_append, h.asks, List.filterMap_append]
    cases call <;> rfl

/-- A copy is being written, with the rest of the items still to come. -/
structure Underway (p : Program) (c : Copy) (base issued : List Label) (T₀ : Trace)
    (rest : List (Item × Nat)) (s : Progress) (e : Expansion) (T : Trace) : Prop where
  written : Written p T (c.ahead rest s.calls base) e
  ranged : p.Each s.opened fun k r o => Standing T c.scopes k r e.ranges.toList o true
  issued : issued ⊆ T.issued (c.ahead rest s.calls base)
  backs : ∀ call ∈ s.calls, call.back ∈ T.issued (c.ahead rest s.calls base)
  sofar : ∃ done pieces, p.numbered = done ++ rest ∧ Sofar p c T₀ done s.calls pieces T

namespace Underway

theorem sofar_next {call : Option Call} {U : Trace} {t : Progress}
    (h : Underway p c base issued T₀ (x :: rest) s e T) (hx : Piece p c x call U)
    (hcalls : t.calls = call.toList ++ s.calls) :
    ∃ done pieces, p.numbered = done ++ rest ∧ Sofar p c T₀ done t.calls pieces (T ++ U) := by
  obtain ⟨done, pieces, hsplit, hsofar⟩ := h.sofar
  exact ⟨done ++ [x], _, by rw [hsplit, List.append_assoc, List.singleton_append], hcalls ▸ hsofar.next hx⟩

theorem numbered (h : Underway p c base issued T₀ (x :: rest) s e T) : p.items.toList[x.2]? = some x.1 := by
  obtain ⟨done, -, hsplit, -⟩ := h.sofar
  have hx : x ∈ p.numbered := hsplit ▸ List.mem_append_right _ (List.mem_cons_self ..)
  exact List.mem_zipIdx_iff_getElem?.1 hx

/-- An item of which nothing is written. -/
theorem pass (h : Underway p c base issued T₀ (x :: rest) s e T) (hlabel : c.label x = none)
    (hhas : c.members.has x.2 = false) (gap : Bool) :
    Underway p c base issued T₀ rest { s with gap } e T where
  written := Copy.ahead_none hlabel ▸ h.written
  ranged := h.ranged
  issued := Copy.ahead_none hlabel ▸ h.issued
  backs := Copy.ahead_none hlabel ▸ h.backs
  sofar := by
    have hnext := h.sofar_next (t := { s with gap }) (.skipped hhas) rfl
    rwa [List.append_nil] at hnext

/-- A mark. -/
theorem mark {insn : Insn} (h : Underway p c base issued T₀ (x :: rest) s e T)
    (hx : Piece p c x none [(insn, none)]) (hpseudo : insn.isPseudo = true)
    (hissued : (T ++ [(insn, none)]).issued (c.ahead rest s.calls base) =
      T.issued (c.ahead (x :: rest) s.calls base)) :
    Underway p c base issued T₀ rest s { e with code := e.code.push insn } (T ++ [(insn, none)]) where
  written := by
    refine h.written.push hissued (fun l hl => ?_) hpseudo
    cases insn <;> first | exact absurd hl List.not_mem_nil | cases hpseudo
  ranged := h.ranged.imp fun _ _ _ hs => hs.mark _
  issued := hissued ▸ h.issued
  backs := hissued ▸ h.backs
  sofar := h.sofar_next hx rfl

/-- A label under the name that it has in the copy. -/
theorem label {l : Label} {i : Nat}
    (h : Underway p c base issued T₀ ((.insn (.label l), i) :: rest) s e T)
    (hlabel : c.label (.insn (.label l), i) = some (rename c.scopes l)) :
    Writes e (copyItem p c i (.insn (.label l)) s) fun s' e' =>
      ∃ T', Underway p c base issued T₀ rest s' e' T' := by
  refine writes_emit (writes_pure ⟨_, h.mark .label rfl ?_⟩)
  rw [issued_label, Copy.ahead_some hlabel]

/-- An instruction that the copy holds. -/
theorem real (hp : p.Sound) (hknows : Knows p issued c.scopes)
    (hback : ∀ back, c.back = some back → back ∈ issued)
    (h : Underway p c base issued T₀ (x :: rest) s e T) (hx : x.1.isPseudo = false)
    (hhas : c.members.has x.2 = true) :
    Writes e (do
      let s ← crossAll p c x.2 s
      copyItem p c x.2 x.1 s) fun s' e' => ∃ T', Underway p c base issued T₀ rest s' e' T' := by
  have hlabel : c.label x = none := by
    unfold Copy.label
    rw [Item.placed_of_isPseudo hx, Option.map_none, ite_self]
  have hcross := crossAll_writes (c := c) (i := x.2) h.written h.ranged fun r hr =>
    h.issued (hknows _ (hp.handler_mem hr))
  refine hcross.bind fun s₁ e₁ ⟨hcalls, W, hW, hw, hkept, hready⟩ => ?_
  have hcopy := copyItem_writes hp h.numbered hx hw hready
    (fun l hl => hkept (h.issued (hknows l hl))) (fun back hc => hkept (h.issued (hback back hc)))
  refine hcopy.imp fun s₂ e₂ ⟨U, call, hnew⟩ => ⟨T ++ (W ++ U), ?_⟩
  rw [← List.append_assoc]
  have hcalls₂ : s₂.calls = call.toList ++ s.calls := hnew.calls.trans (by rw [hcalls])
  have hahead : (call.toList.map (·.entry) ++ c.ahead (x :: rest) s.calls base).Perm
      (c.ahead rest s₂.calls base) := by
    rw [hcalls₂, Copy.ahead_none hlabel]
    exact Copy.ahead_calls call.toList
  have hissued : ((T ++ W ++ U).issued (call.toList.map (·.entry) ++ c.ahead (x :: rest) s.calls base)).Perm
      ((T ++ W ++ U).issued (c.ahead rest s₂.calls base)) := hahead.append_left _
  have hsubset : T.issued (c.ahead (x :: rest) s.calls base) ⊆
      (T ++ W ++ U).issued (c.ahead rest s₂.calls base) :=
    fun l hl => hissued.mem_iff.1 (hnew.issued (hkept hl))
  exact {
    written := hnew.written.perm hahead
    ranged := by
      rw [hnew.opened]
      exact hnew.ready.imp fun _ _ _ hs => hs.1
    issued := List.Subset.trans h.issued hsubset
    backs := by
      intro y hy
      rw [hcalls₂] at hy
      rcases List.mem_append.1 hy with hy | hy
      · exact hissued.mem_iff.1 (hnew.backs y (Option.mem_toList.1 hy))
      · exact hsubset (h.backs y hy)
    sofar := by
      rw [List.append_assoc]
      exact h.sofar_next (.real hhas hW hnew.rendered) hcalls₂ }

/-- One step. -/
theorem step (hp : p.Sound) (hknows : Knows p issued c.scopes)
    (hback : ∀ back, c.back = some back → back ∈ issued)
    (h : Underway p c base issued T₀ (x :: rest) s e T) :
    Writes e (Subroutine.step p c s x.1 x.2) fun s' e' =>
      ∃ T', Underway p c base issued T₀ rest s' e' T' := by
  obtain ⟨item, i⟩ := x
  unfold Subroutine.step
  by_cases hhas : c.members.has i = true
  · rw [if_pos hhas]
    by_cases hpseudo : item.isPseudo = true
    · rw [if_pos hpseudo, pure_bind]
      have hmember {l : Label} (hl : item.placed = some l) : c.label (item, i) = some (rename c.scopes l) := by
        unfold Copy.label
        simp only [hhas, Bool.true_or, if_true, hl, Option.map_some]
      cases item with
      | insn insn =>
        cases insn with
        | label l => exact h.label (hmember rfl)
        | line n =>
          have hlabel : c.label (.insn (.line n), i) = none := ite_self _
          refine writes_emit (writes_pure ⟨_, h.mark .line rfl ?_⟩)
          rw [issued_other rfl, Copy.ahead_none hlabel]
        | _ => cases hpseudo
      | jsr _ | ret _ => cases hpseudo
    · rw [if_neg hpseudo]
      exact h.real hp hknows hback (Bool.eq_false_iff.2 hpseudo) hhas
  · rw [if_neg hhas]
    by_cases hmain : (c.isMain && item.placed.isSome) = true
    · rw [if_pos hmain]
      rw [Bool.and_eq_true, Option.isSome_iff_exists] at hmain
      obtain ⟨hmain, l, hl⟩ := hmain
      cases Item.placed_eq_some.1 hl
      refine h.label ?_
      unfold Copy.label
      rw [hmain, Bool.or_true]
      rfl
    · rw [if_neg hmain]
      refine writes_pure ⟨T, h.pass ?_ (Bool.eq_false_iff.2 hhas) _⟩
      unfold Copy.label
      cases hc : c.isMain with
      | false => exact if_neg (by simpa only [Bool.or_false] using hhas)
      | true =>
        rw [hc, Bool.true_and, Bool.not_eq_true, Option.isSome_eq_false_iff, Option.isNone_iff_eq_none] at hmain
        rw [hmain, Option.map_none, ite_self]

end Underway

/-- Between two copies: what is written stands, and no range is open. -/
structure Settled (p : Program) (T : Trace) (pending : List Label) (e : Expansion) : Prop where
  written : Written p T pending e
  closed : ∀ scopes k r, p.regions[k]? = some r → Standing T scopes k r e.ranges.toList none true

namespace Settled

variable {pending' : List Label}

theorem perm (h : Settled p T pending e) (hp : pending.Perm pending') : Settled p T pending' e :=
  ⟨h.written.perm hp, h.closed⟩

theorem label {l : Label} (h : Settled p T (l :: pending) e) :
    Settled p (T ++ [(Insn.label l, none)]) pending { e with code := e.code.push (.label l) } :=
  ⟨h.written.label, fun scopes k r hr => (h.closed scopes k r hr).mark _⟩

theorem fresh (h : Settled p T pending e) : Settled p T (e.next :: pending) { e with next := e.next + 1 } :=
  ⟨h.written.fresh, h.closed⟩

/-- Writing a copy starts with no range open. -/
theorem start (h : Settled p T (p.numbered.filterMap c.label ++ base) e) :
    Underway p c base (T.issued (p.numbered.filterMap c.label ++ base)) T p.numbered
      ⟨p.regions.map fun _ => none, false, []⟩ e T where
  written := h.written
  ranged := by
    refine ⟨List.length_map _, fun k r o hr ho => ?_⟩
    rw [List.getElem?_map, hr] at ho
    cases ho
    exact h.closed c.scopes k r hr
  issued := List.Subset.refl _
  backs := nofun
  sofar := ⟨[], [], rfl, .nil, (List.append_nil T).symm, rfl⟩

end Settled

def shut (scopes : Scopes) (x : (Region × Option Label) × Nat) : Expand (ForInStep PUnit) :=
  match x.1.2 with
  | some start => do
    close scopes x.2 x.1.1 start
    pure (.yield ⟨⟩)
  | none => pure (.yield ⟨⟩)

theorem writeCopy_eq : writeCopy p c = (do
    let s ← p.numbered.foldlM (fun s x => step p c s x.1 x.2) ⟨p.regions.map fun _ => none, false, []⟩
    forIn (p.regions.zip s.opened).zipIdx ⟨⟩ fun x _ => shut c.scopes x
    return s.calls.reverse) := by
  unfold writeCopy
  refine bind_congr fun s => congrArg (· >>= fun _ => pure s.calls.reverse) ?_
  refine congrArg (forIn _ PUnit.unit) ?_
  funext x r
  obtain ⟨⟨r, o⟩, number⟩ := x
  cases o <;> rfl

theorem shuts_write {xs : List ((Region × Option Label) × Nat)} (h : Written p T pending e)
    (hnum : (xs.map (·.2)).Nodup)
    (hs : ∀ x ∈ xs, Standing T c.scopes x.2 x.1.1 e.ranges.toList x.1.2 true)
    (hhandler : ∀ x ∈ xs, rename c.scopes x.1.1.entry.handler ∈ T.issued pending) :
    Writes e (forIn xs PUnit.unit fun x _ => shut c.scopes x) fun _ e' => ∃ T',
      Noted p pending (xs.map (·.2)) T e T' e' ∧
      ∀ x ∈ xs, Standing T' c.scopes x.2 x.1.1 e'.ranges.toList none true := by
  induction xs generalizing T e with
  | nil => exact writes_pure ⟨T, .refl h, nofun⟩
  | cons x xs ih =>
    rw [List.map_cons, List.nodup_cons] at hnum
    rw [List.forIn_cons]
    have hhead : Writes e (shut c.scopes x) fun r e' => r = .yield ⟨⟩ ∧ ∃ T',
        Noted p pending [x.2] T e T' e' ∧ Standing T' c.scopes x.2 x.1.1 e'.ranges.toList none true := by
      have hx := hs x (List.mem_cons_self ..)
      unfold shut
      split
      · rename_i start ho
        rw [ho] at hx
        exact (close_writes h hx (hhandler x (List.mem_cons_self ..))).bind
          fun _ e' hclosed => writes_pure ⟨rfl, hclosed⟩
      · rename_i ho
        rw [ho] at hx
        exact writes_pure ⟨rfl, T, .refl h, hx⟩
    refine hhead.bind fun r e' ⟨hr, T', hT', hs'⟩ => ?_
    subst hr
    have later := hT'.keeps hnum.1 fun y hy => hs y (List.mem_cons_of_mem _ hy)
    refine (ih hT'.written hnum.2 later fun y hy => hT'.issued (hhandler y (List.mem_cons_of_mem _ hy))).imp
      fun _ e'' ⟨T'', hT'', hclosed⟩ => ⟨T'', hT'.trans hT'', fun y hy => ?_⟩
    rcases List.mem_cons.1 hy with rfl | hy
    · exact hT''.others _ _ _ _ _ hnum.1 hs'
    · exact hclosed y hy

/-- What a copy adds: its pieces, and marks that end the ranges that are open behind them. -/
structure CopyMade (p : Program) (c : Copy) (T : Trace) (base : List Label)
    (pieces : List (Option Call × Trace)) (W T' : Trace) (calls : List Call) (e' : Expansion) : Prop where
  settled : Settled p T' (calls.map (·.entry) ++ base) e'
  renders : Pieces p c p.numbered pieces
  trace : T' = T ++ pieces.flatMap (·.2) ++ W
  silent : W.Silent
  asks : calls = pieces.filterMap (·.1)
  issued : T.issued (p.numbered.filterMap c.label ++ base) ⊆ T'.issued (calls.map (·.entry) ++ base)
  backs : ∀ call ∈ calls, call.back ∈ T'.issued (calls.map (·.entry) ++ base)

/-- A copy is about to be written: what it places or names is given out. -/
structure Due (p : Program) (c : Copy) (T : Trace) (base : List Label) (e : Expansion) : Prop where
  settled : Settled p T (p.numbered.filterMap c.label ++ base) e
  knows : Knows p (T.issued (p.numbered.filterMap c.label ++ base)) c.scopes
  back : ∀ back, c.back = some back → back ∈ T.issued (p.numbered.filterMap c.label ++ base)

theorem writeCopy_writes (hp : p.Sound) (h : Due p c T base e) :
    Writes e (writeCopy p c) fun calls e' => ∃ pieces W T', CopyMade p c T base pieces W T' calls e' := by
  rw [writeCopy_eq]
  have hall := writes_foldlM (fun rest s e => ∃ T', Underway p c base
    (T.issued (p.numbered.filterMap c.label ++ base)) T rest s e T')
    (fun x rest s e ⟨T', hT'⟩ => hT'.step hp h.knows h.back) ⟨T, h.settled.start⟩
  refine hall.bind fun s e₁ ⟨T₁, h₁⟩ => ?_
  have hzip {x : (Region × Option Label) × Nat} (hx : x ∈ (p.regions.zip s.opened).zipIdx) :=
    mem_numbered_zip hx
  have hshut : Writes e₁ (forIn (p.regions.zip s.opened).zipIdx PUnit.unit fun x _ => shut c.scopes x) _ :=
    shuts_write h₁.written (nodup_numbers _) (fun x hx => h₁.ranged.2 _ _ _ (hzip hx).1 (hzip hx).2)
      fun x hx => h₁.issued (h.knows _ (hp.handler_mem (List.mem_of_getElem? (hzip hx).1)))
  refine hshut.bind fun _ e₂ ⟨T₂, h₂, hclosed⟩ => writes_pure ?_
  obtain ⟨done, pieces, hdone, hsofar⟩ := h₁.sofar
  rw [List.append_nil] at hdone
  obtain ⟨W, rfl, hW⟩ := h₂.appended
  refine ⟨pieces, W, T₁ ++ W, ?_⟩
  exact {
    settled := by
      refine ⟨h₂.written, fun scopes k r hr => ?_⟩
      have hk : k < s.opened.length := h₁.ranged.1 ▸ (List.getElem?_eq_some_iff.1 hr).1
      have hx : ((r, s.opened[k]), k) ∈ (p.regions.zip s.opened).zipIdx :=
        List.mem_zipIdx_iff_getElem?.2 (List.getElem?_zip_eq_some.2 ⟨hr, List.getElem?_eq_getElem hk⟩)
      exact (hclosed _ hx).rescope scopes
    renders := hdone ▸ hsofar.renders
    trace := by rw [hsofar.trace]
    silent := hW
    asks := hsofar.asks
    issued := List.Subset.trans h₁.issued h₂.issued
    backs := fun call hcall => h₂.issued (h₁.backs call (List.mem_reverse.1 hcall)) }

/-! ## The labels of a copy -/

theorem rename_cons (scope : Std.TreeMap Label Label) (scopes : Scopes) (l : Label) :
    rename (scope :: scopes) l = (scope[l]?).getD (rename scopes l) := by
  unfold rename
  rw [List.findSome?_cons]
  cases scope[l]? <;> rfl

/-- What the scope of a copy calls the label that an item places. -/
def givenTo (members : Members) (scope : Std.TreeMap Label Label) (x : Item × Nat) : Option Label :=
  if members.has x.2 then x.1.placed.bind (scope[·]?) else none

/-- A scope names the labels of the items of a copy among the first items, and gives each a label that is
still to be placed. -/
structure Scoping (p : Program) (members : Members) (T : Trace) (base : List Label)
    (done : List (Item × Nat)) (scope : Std.TreeMap Label Label) (e : Expansion) : Prop where
  settled : Settled p T (done.filterMap (givenTo members scope) ++ base) e
  keys : ∀ l l' : Label, scope[l]? = some l' → ∃ x ∈ done, members.has x.2 = true ∧ x.1.placed = some l
  known : ∀ x ∈ done, members.has x.2 = true → ∀ l, x.1.placed = some l → (scope[l]?).isSome = true

theorem Scoping.values {members : Members} {done : List (Item × Nat)} {scope : Std.TreeMap Label Label}
    (h : Scoping p members T base done scope e) {l l' : Label} (hl : scope[l]? = some l') :
    l' ∈ done.filterMap (givenTo members scope) := by
  obtain ⟨x, hx, hhas, hplaced⟩ := h.keys l l' hl
  refine List.mem_filterMap.2 ⟨x, hx, ?_⟩
  rw [givenTo, if_pos hhas, hplaced, Option.bind_some, hl]

theorem Scoping.skip {members : Members} {done : List (Item × Nat)} {scope : Std.TreeMap Label Label}
    (h : Scoping p members T base done scope e)
    (hx : ∀ l, members.has x.2 = true → x.1.placed = some l → False) :
    Scoping p members T base (done ++ [x]) scope e := by
  have hnone : givenTo members scope x = none := by
    unfold givenTo
    split
    · rename_i hhas
      cases hl : x.1.placed with
      | none => rfl
      | some l => exact (hx l hhas hl).elim
    · rfl
  have hsame : (done ++ [x]).filterMap (givenTo members scope) = done.filterMap (givenTo members scope) := by
    rw [List.filterMap_append, List.filterMap_cons_none hnone, List.filterMap_nil, List.append_nil]
  refine ⟨hsame ▸ h.settled, fun l l' hl => ?_, fun y hy hhas l hl => ?_⟩
  · obtain ⟨y, hy, hl⟩ := h.keys l l' hl
    exact ⟨y, List.mem_append_left _ hy, hl⟩
  rcases List.mem_append.1 hy with hy | hy
  · exact h.known y hy hhas l hl
  · cases List.mem_singleton.1 hy
    exact (hx l hhas hl).elim

/-- One more label of the copy gets a new label. -/
theorem Scoping.name {members : Members} {done : List (Item × Nat)} {scope : Std.TreeMap Label Label}
    {l : Label} (h : Scoping p members T base done scope e) (hhas : members.has x.2 = true)
    (hl : x.1.placed = some l) (hnew : ∀ y ∈ done, y.1.placed ≠ some l) :
    Scoping p members T base (done ++ [x]) (scope.insert l e.next) { e with next := e.next + 1 } := by
  have hbefore : ∀ y ∈ done, givenTo members (scope.insert l e.next) y = givenTo members scope y := by
    intro y hy
    unfold givenTo
    refine congrArg (fun o => if members.has y.2 then o else none) (Option.bind_congr fun l' hl' => ?_)
    rw [Std.TreeMap.getElem?_insert, if_neg]
    rintro he
    cases Std.compare_eq_iff_eq.1 he
    exact hnew y hy hl'
  have hat : givenTo members (scope.insert l e.next) x = some e.next := by
    unfold givenTo
    rw [if_pos hhas, hl, Option.bind_some, Std.TreeMap.getElem?_insert_self]
  have hgiven : (done ++ [x]).filterMap (givenTo members (scope.insert l e.next)) =
      done.filterMap (givenTo members scope) ++ [e.next] := by
    rw [List.filterMap_append, List.filterMap_congr hbefore, List.filterMap_cons_some hat,
      List.filterMap_nil]
  refine ⟨?_, fun l₁ l₂ hl₁ => ?_, fun y hy hy' l₁ hl₁ => ?_⟩
  · rw [hgiven]
    refine h.settled.fresh.perm ?_
    rw [List.append_assoc]
    exact List.perm_middle.symm
  · rw [Std.TreeMap.getElem?_insert] at hl₁
    split at hl₁
    · rename_i he
      cases Std.compare_eq_iff_eq.1 he
      exact ⟨x, List.mem_append_right _ (List.mem_singleton_self _), hhas, hl⟩
    · obtain ⟨y, hy, hl₁⟩ := h.keys l₁ l₂ hl₁
      exact ⟨y, List.mem_append_left _ hy, hl₁⟩
  · rw [Std.TreeMap.getElem?_insert]
    split
    · rfl
    · rename_i hne
      rcases List.mem_append.1 hy with hy | hy
      · exact h.known y hy hy' l₁ hl₁
      · cases List.mem_singleton.1 hy
        cases hl.symm.trans hl₁
        exact absurd (Std.compare_eq_iff_eq.2 rfl) hne

theorem Program.labels_eq : p.labels = p.numbered.filterMap (·.1.placed) := by
  have hitems : p.items.toList = p.numbered.map (·.1) := by
    unfold Program.numbered
    rw [List.zipIdx_map_fst]
  unfold Program.labels
  rw [hitems, List.filterMap_map]
  rfl

theorem copyLabels_writes {members : Members} (hp : p.Sound) (h : Settled p T base e) :
    Writes e (copyLabels p members) fun scope e' => Scoping p members T base p.numbered scope e' := by
  unfold copyLabels
  refine (writes_foldlM (fun rest scope e => ∃ done, p.numbered = done ++ rest ∧
    Scoping p members T base done scope e) (fun x rest scope e ⟨done, hdone, hs⟩ => ?_)
    ⟨[], rfl, h, by simp, nofun⟩).imp fun scope e' ⟨done, hdone, hs⟩ => ?_
  · obtain ⟨item, i⟩ := x
    dsimp only
    have hsplit : p.numbered = done ++ [(item, i)] ++ rest := by
      rw [hdone, List.append_assoc]
      rfl
    split
    · rename_i l hhas hl
      refine writes_fresh (writes_pure ⟨_, hsplit, hs.name hhas hl fun y hy hyl => ?_⟩)
      have hnodup := hp.nodup
      rw [Program.labels_eq, hdone, List.filterMap_append, List.nodup_append] at hnodup
      exact hnodup.2.2 l (List.mem_filterMap.2 ⟨y, hy, hyl⟩) l
        (List.mem_filterMap.2 ⟨_, List.mem_cons_self .., hl⟩) rfl
    · rename_i hnot
      exact writes_pure ⟨_, hsplit, hs.skip fun l hhas hl => hnot l hhas hl⟩
  · rw [hdone, List.append_nil]
    exact hs

/-- The labels given out for a copy are those that its items place. -/
theorem Scoping.label_eq {members : Members} {scope : Std.TreeMap Label Label}
    (h : Scoping p members T base p.numbered scope e) (back : Option Label) (scopes : Scopes) :
    p.numbered.filterMap (givenTo members scope) =
      p.numbered.filterMap (Copy.label ⟨members, false, back, scope :: scopes⟩) := by
  refine List.filterMap_congr fun x hx => ?_
  unfold givenTo Copy.label
  dsimp only
  rw [Bool.or_false]
  split
  · rename_i hhas
    cases hl : x.1.placed with
    | none => rfl
    | some l =>
      obtain ⟨l', hl'⟩ := Option.isSome_iff_exists.1 (h.known x hx hhas l hl)
      rw [Option.bind_some, Option.map_some, rename_cons, hl', Option.getD_some]
  · rfl

/-- Behind its entry a copy is due. Its own labels are known there too. -/
theorem Scoping.due {members : Members} {scope : Std.TreeMap Label Label} {scopes : Scopes}
    {entry back : Label} (h : Scoping p members T (entry :: base) p.numbered scope e)
    (hknows : Knows p (T.issued (entry :: base)) scopes) (hback : back ∈ T.issued (entry :: base)) :
    Due p ⟨members, false, some back, scope :: scopes⟩ (T ++ [(Insn.label entry, none)]) base
        { e with code := e.code.push (.label entry) } ∧
      T.issued (entry :: base) ⊆ (T ++ [(Insn.label entry, none)]).issued
        (p.numbered.filterMap (Copy.label ⟨members, false, some back, scope :: scopes⟩) ++ base) := by
  rw [← h.label_eq (some back) scopes]
  have hvalue {l l' : Label} (hl : scope[l]? = some l') :
      l' ∈ (T ++ [(Insn.label entry, none)]).issued (p.numbered.filterMap (givenTo members scope) ++ base) :=
    List.mem_append_right _ (List.mem_append_left _ (h.values hl))
  have hsubset : T.issued (entry :: base) ⊆ (T ++ [(Insn.label entry, none)]).issued
      (p.numbered.filterMap (givenTo members scope) ++ base) := by
    intro l hl
    rw [issued_label]
    refine (issued_cons _).mem_iff.2 (List.mem_cons.2 ?_)
    refine (List.mem_cons.1 ((issued_cons _).mem_iff.1 hl)).imp_right fun hl => ?_
    rcases List.mem_append.1 hl with hl | hl
    · exact List.mem_append_left _ hl
    · exact List.mem_append_right _ (List.mem_append_right _ hl)
  refine ⟨⟨?_, fun l hl => ?_, ?_⟩, hsubset⟩
  · rw [← h.label_eq (some back) scopes]
    exact (h.settled.perm List.perm_middle).label
  · rw [← h.label_eq (some back) scopes, rename_cons]
    cases hl' : scope[l]? with
    | some l' => exact hvalue hl'
    | none => exact hsubset (hknows l hl)
  · rw [← h.label_eq (some back) scopes]
    rintro _ ⟨⟩
    exact hsubset hback

/-! ## All copies -/

def Trace.Holds (T : Trace) (n : Nat) (U : Trace) : Prop :=
  U <+: T.drop n

theorem Trace.Holds.append {n : Nat} {U : Trace} (h : T.Holds n U) (W : Trace) : Holds (T ++ W) n U := by
  unfold Holds at h ⊢
  rw [List.drop_append]
  exact h.trans (List.prefix_append ..)

theorem Trace.Holds.get {n k : Nat} {U : Trace} (h : T.Holds n U) (hk : k < U.length) :
    T[n + k]? = U[k]? := by
  obtain ⟨W, hW⟩ := h
  rw [← List.getElem?_drop, ← hW, List.getElem?_append_left hk]

def Copy.called (p : Program) (main : Members) (c : Copy) (call : Call) (scope : Std.TreeMap Label Label) :
    Copy :=
  { members := p.members main call.entryIndex, isMain := false, back := some call.back,
    scopes := scope :: c.scopes }

/-- No label is renamed but those in front of what is copied. -/
def Own (p : Program) (members : Members) (scope : Std.TreeMap Label Label) : Prop :=
  ∀ l k, p.items.toList[k]? = some (.insn (.label l)) → members.has k = false → scope[l]? = none

/-- A copy stands in the trace, and so does behind its entry the copy of everything that it calls, as deep
as calls nest. -/
def Laid (p : Program) (main : Members) (T : Trace) : (nesting : Nat) → Copy → Nat → Prop
  | 0, c, n => ∃ pieces, Pieces p c p.numbered pieces ∧ T.Holds n (pieces.flatMap (·.2)) ∧
    ∀ call, call ∉ pieces.filterMap (·.1)
  | nesting + 1, c, n => ∃ pieces, Pieces p c p.numbered pieces ∧ T.Holds n (pieces.flatMap (·.2)) ∧
    ∀ call ∈ pieces.filterMap (·.1), ∃ scope m, T.Stands call.entry m ∧
      Own p (p.members main call.entryIndex) scope ∧
      Laid p main T nesting (c.called p main call scope) (m + 1)

theorem Laid.append {main : Members} {nesting n : Nat} (h : Laid p main T nesting c n) (W : Trace) :
    Laid p main (T ++ W) nesting c n := by
  induction nesting generalizing c n with
  | zero =>
    obtain ⟨pieces, hpieces, hholds, hnone⟩ := h
    exact ⟨pieces, hpieces, hholds.append W, hnone⟩
  | succ nesting ih =>
    obtain ⟨pieces, hpieces, hholds, hcalls⟩ := h
    refine ⟨pieces, hpieces, hholds.append W, fun call hcall => ?_⟩
    obtain ⟨scope, m, hentry, hown, hlaid⟩ := hcalls call hcall
    exact ⟨scope, m, hentry.append W, hown, ih hlaid⟩

/-- The scope of a copy names only labels of the copy. -/
theorem Scoping.own {members : Members} {scope : Std.TreeMap Label Label} (hp : p.Sound)
    (h : Scoping p members T base p.numbered scope e) : Own p members scope := by
  intro l k hk hhas
  cases hl : scope[l]? with
  | none => rfl
  | some l' =>
    obtain ⟨x, hx, hmember, hplaced⟩ := h.keys l l' hl
    have hitem : p.items.toList[x.2]? = some x.1 := List.mem_zipIdx_iff_getElem?.1 hx
    rw [← filterMap_index_unique hp.nodup hk rfl hitem hplaced, hhas] at hmember
    cases hmember

/-- What a copy and the copies of everything it calls add. -/
structure CopiesMade (p : Program) (main : Members) (nesting : Nat) (c : Copy) (T : Trace)
    (base : List Label) (T' : Trace) (e' : Expansion) : Prop where
  settled : Settled p T' base e'
  sources : T'.sources = T.sources ++ p.sources main nesting c.members
  issued : T.issued (p.numbered.filterMap c.label ++ base) ⊆ T'.issued base
  kept : T <+: T'
  laid : Laid p main T' nesting c T.length

theorem CopyMade.holds {pieces : List (Option Call × Trace)} {W T' : Trace}
    (h : CopyMade p c T base pieces W T' calls e) : T'.Holds T.length (pieces.flatMap (·.2)) := by
  unfold Trace.Holds
  rw [h.trace, List.append_assoc, List.drop_left]
  exact List.prefix_append ..

theorem CopyMade.sources {pieces : List (Option Call × Trace)} {W T' : Trace}
    (h : CopyMade p c T base pieces W T' calls e) :
    T'.sources = T.sources ++ p.numbered.flatMap (Program.copied c.members) := by
  rw [h.trace, sources_append, sources_append, h.silent.sources, List.append_nil, h.renders.sources]

/-- While the copies of calls are written: what was there before stays, and what is no longer to come stands. -/
structure Calling (p : Program) (main : Members) (nesting : Nat) (c : Copy) (base : List Label) (T₁ : Trace)
    (calls rest : List Call) (e : Expansion) (T : Trace) : Prop where
  settled : Settled p T (rest.map (·.entry) ++ base) e
  issued : T₁.issued (calls.map (·.entry) ++ base) ⊆ T.issued (rest.map (·.entry) ++ base)
  subset : rest ⊆ calls
  kept : T₁ <+: T
  sources : T.sources ++ rest.flatMap (fun call => p.sources main nesting (p.members main call.entryIndex)) =
    T₁.sources ++ calls.flatMap fun call => p.sources main nesting (p.members main call.entryIndex)
  laid : ∀ call ∈ calls, call ∈ rest ∨ ∃ scope m, T.Stands call.entry m ∧
    Own p (p.members main call.entryIndex) scope ∧
    Laid p main T nesting (c.called p main call scope) (m + 1)

theorem writeNested_writes {main : Members} {nesting : Nat} (hp : p.Sound) (h : Due p c T base e) :
    Writes e (writeNested p main nesting c) fun _ e' => ∃ T', CopiesMade p main nesting c T base T' e' := by
  induction nesting generalizing c T base e with
  | zero =>
    refine (writeCopy_writes hp h).bind fun calls e₁ ⟨pieces, W, T₁, h₁⟩ => ?_
    cases calls with
    | nil =>
      refine writes_pure ⟨T₁, h₁.settled, h₁.sources, h₁.issued, ?_, pieces, h₁.renders, h₁.holds, ?_⟩
      · rw [h₁.trace, List.append_assoc]
        exact List.prefix_append ..
      · rw [← h₁.asks]
        exact fun _ => List.not_mem_nil
    | cons call calls => exact writes_throw call.entryIndex
  | succ nesting ih =>
    refine (writeCopy_writes hp h).bind fun calls e₁ ⟨pieces, W, T₁, h₁⟩ => ?_
    have hprefix : T <+: T₁ := by
      rw [h₁.trace, List.append_assoc]
      exact List.prefix_append ..
    refine (writes_forM (fun rest e => ∃ T', Calling p main nesting c base T₁ calls rest e T')
      (fun call rest e₂ ⟨T₂, h₂⟩ => ?_)
      ⟨T₁, h₁.settled, List.Subset.refl _, List.Subset.refl _, List.prefix_rfl, rfl, fun _ => .inl⟩).imp
        fun _ e' ⟨T', hT'⟩ => ⟨T', hT'.settled, ?_, List.Subset.trans h₁.issued hT'.issued,
          hprefix.trans hT'.kept, pieces, h₁.renders, ?_, fun call hcall => ?_⟩
    · refine (copyLabels_writes hp h₂.settled).bind fun scope e₃ h₃ => writes_emit ?_
      obtain ⟨hdue, hsubset⟩ := h₃.due (fun l hl => h₂.issued (h₁.issued (h.knows l hl)))
        (h₂.issued (h₁.backs call (h₂.subset (List.mem_cons_self ..))))
      refine (ih hdue).imp fun _ e₄ ⟨T₄, h₄⟩ => ⟨T₄, ?_⟩
      obtain ⟨U, rfl⟩ := h₄.kept
      exact {
        settled := h₄.settled
        issued := List.Subset.trans (List.Subset.trans h₂.issued hsubset) h₄.issued
        subset := List.Subset.trans (List.subset_cons_self ..) h₂.subset
        kept := by
          rw [List.append_assoc]
          exact h₂.kept.trans (List.prefix_append ..)
        sources := by
          rw [← h₂.sources, h₄.sources, sources_append, silent_mark.sources, List.append_nil,
            List.flatMap_cons, List.append_assoc]
        laid := fun y hy => by
          rcases h₂.laid y hy with hy | ⟨scope, m, hentry, hown, hlaid⟩
          · rcases List.mem_cons.1 hy with rfl | hy
            · refine .inr ⟨scope, T₂.length, stands_end.append U, h₃.own hp, ?_⟩
              have hlaid := h₄.laid
              rwa [List.length_append] at hlaid
            · exact .inl hy
          · refine .inr ⟨scope, m, ?_, hown, ?_⟩
            · rw [List.append_assoc]
              exact hentry.append _
            · rw [List.append_assoc]
              exact hlaid.append _ }
    · have hsources := hT'.sources
      rw [List.flatMap_nil, List.append_nil] at hsources
      rw [hsources, h₁.sources, List.append_assoc, Program.sources, ← h₁.renders.callees, ← h₁.asks,
        List.flatMap_map]
    · obtain ⟨U, rfl⟩ := hT'.kept
      exact h₁.holds.append U
    · rw [← h₁.asks] at hcall
      exact (hT'.laid call hcall).resolve_left List.not_mem_nil

end Whole

/-! ## All of the code -/

def Program.main (p : Program) : Members :=
  p.members #[] 0

def Program.origins (p : Program) : List Nat :=
  p.sources p.main maxNesting p.main

def program (items : List Item) (regions : List Region) : Program :=
  ⟨items.toArray, itemPositions items, regions⟩

section All

variable {items : List Item} {tryCatch : List TryCatch} {next : Label} {regions : List Region}

theorem Sound.program (h : Sound items tryCatch next)
    (hr : tryCatch.mapM (region (itemPositions items)) = .ok regions) :
    (program items regions).Sound where
  nodup := h.nodup
  place _ _ := h.position_iff
  mentions := h.mentions
  handlers r hr' := by
    obtain ⟨t, ht, hregion⟩ := (mem_forall₂ (mapM_eq_ok.1 hr)).2 r hr'
    rw [(region_eq_ok.1 hregion).2.2.2]
    exact h.position_iff.1 (region_eq_ok.1 hregion).2.2.1

/-- The main code is due at the start. -/
theorem Sound.due (h : Sound items tryCatch next) (main : Members) :
    Due (Subroutine.program items regions) ⟨main, true, none, []⟩ [] [] ⟨next, #[], #[]⟩ := by
  have hlabel : (Subroutine.program items regions).numbered.filterMap (Copy.label ⟨main, true, none, []⟩) =
      items.filterMap Item.placed := by
    have hlabels : items.filterMap Item.placed = (Subroutine.program items regions).labels := rfl
    rw [hlabels, Program.labels_eq]
    refine List.filterMap_congr fun x _ => ?_
    unfold Copy.label
    dsimp only
    rw [Bool.or_true, if_pos rfl]
    cases x.1.placed <;> rfl
  have hissued : Trace.issued [] (items.filterMap Item.placed ++ []) = items.filterMap Item.placed :=
    List.append_nil _
  refine ⟨⟨⟨rfl, ?_, ?_, nofun, nofun, nofun⟩, fun _ k r _ => ⟨nofun, nofun, fun n i hn => ?_⟩⟩, ?_, nofun⟩
  · rw [hlabel, hissued]
    exact h.nodup
  · rw [hlabel, hissued]
    exact h.below
  · obtain ⟨_, hn⟩ := hn
    cases hn
  · rw [hlabel, hissued]
    exact fun l hl => hl

theorem expand_eq (hr : tryCatch.mapM (region (itemPositions items)) = .ok regions) :
    expand items tryCatch next = match regions.find? fun r => r.stop < r.start with
      | some r => .error (.invertedRange r.entry.start)
      | none => match writeNested (program items regions) (program items regions).main maxNesting
          ⟨(program items regions).main, true, none, []⟩ ⟨next, #[], #[]⟩ with
        | .ok (_, e) => .ok ⟨e.code.toList, groupRanges regions e.ranges.toList, e.next⟩
        | .error err => .error err := by
  unfold expand
  dsimp only
  rw [hr]
  change pure regions >>= _ = _
  rw [pure_bind]
  cases regions.find? fun r => r.stop < r.start with
  | some r => rfl
  | none =>
    change writeNested (program items regions) (program items regions).main maxNesting
        ⟨(program items regions).main, true, none, []⟩ ⟨next, #[], #[]⟩ >>= _ = _
    cases writeNested (program items regions) (program items regions).main maxNesting
      ⟨(program items regions).main, true, none, []⟩ ⟨next, #[], #[]⟩ <;> rfl

/-- What expanding sound code comes to. -/
theorem Sound.expands (h : Sound items tryCatch next) :
    ∃ regions, tryCatch.mapM (region (itemPositions items)) = .ok regions ∧
      match expand items tryCatch next with
      | .ok e => ∃ T e', Settled (Subroutine.program items regions) T [] e' ∧
        T.sources = (Subroutine.program items regions).origins ∧
        Laid (Subroutine.program items regions) (Subroutine.program items regions).main T maxNesting
          ⟨(Subroutine.program items regions).main, true, none, []⟩ 0 ∧
        e = ⟨e'.code.toList, groupRanges regions e'.ranges.toList, e'.next⟩
      | .error err => (∃ r ∈ regions, r.stop < r.start ∧ err = .invertedRange r.entry.start) ∨
        (∀ r ∈ regions, r.start ≤ r.stop) ∧ ∃ i, err = .subroutine i := by
  obtain ⟨regions, hregions⟩ := h.regions
  refine ⟨regions, hregions, ?_⟩
  have hwrites : Writes ⟨next, #[], #[]⟩ (writeNested (Subroutine.program items regions)
      (Subroutine.program items regions).main maxNesting
      ⟨(Subroutine.program items regions).main, true, none, []⟩) _ :=
    writeNested_writes (h.program hregions) (h.due _)
  rw [expand_eq hregions]
  cases hfind : regions.find? fun r => r.stop < r.start with
  | some r =>
    exact .inl ⟨r, List.mem_of_find?_eq_some hfind, of_decide_eq_true (List.find?_some hfind :), rfl⟩
  | none =>
    unfold Writes at hwrites
    dsimp only
    split at hwrites
    · rename_i u e' hrun
      rw [hrun]
      obtain ⟨T, hT⟩ := hwrites
      exact ⟨T, e', hT.settled, hT.sources, hT.laid, rfl⟩
    · rename_i err hrun
      rw [hrun]
      refine .inr ⟨fun r hr => ?_, hwrites⟩
      have := List.find?_eq_none.1 hfind r hr
      simpa using this

end All

end Subroutine

end Interpose

import Interpose.Proofs.Code.Expanded
/-!
# Copies inside copies

Where the copies stand that calls are expanded to. While calls are active, the code that runs is the copy
for the innermost of them, inside the copy for the next one, and so on to the main code (`Stacked`). The
copy goes on where the code goes on (`Stacked.has_next`, `Stacked.has_target`), its labels stand in front of
what is copied (`Stacked.label`), and behind a call stands the label that the copy of what is called
returns to (`Stacked.back`). An exception finds the copy of the first range that covers what it comes from,
with the handler as it is called in the copy (`Settled.find_range`), and that is the handler in the innermost copy
around that holds it (`Stacked.unwind`).
-/

namespace Interpose

/-! ## Reachability -/

section Reachable

variable {next : Nat → List Nat} {seen : Array Bool} {work : List Nat} {i j : Nat}

/-- What is marked stays marked, and what is to be visited is marked in the end. -/
theorem reachFrom_marks (h : seen[i]? = some true ∨ i ∈ work ∧ i < seen.size) :
    (reachFrom next seen work)[i]? = some true := by
  fun_induction reachFrom next seen work with
  | case1 seen => exact h.resolve_right fun hi => List.not_mem_nil hi.1
  | case2 seen k rest hk hmark ih =>
    refine ih (h.elim .inl fun ⟨hi, hlt⟩ => ?_)
    rcases List.mem_cons.1 hi with rfl | hi
    · exact .inl (Array.getElem?_eq_some_iff.2 ⟨hk, hmark⟩)
    · exact .inr ⟨hi, hlt⟩
  | case3 seen k rest hk hmark ih =>
    refine ih ?_
    by_cases hik : k = i
    · subst hik
      exact .inl (Array.getElem?_set_self hk)
    · rw [Array.getElem?_set_ne hk hik, Array.size_set]
      refine h.imp_right fun ⟨hi, hlt⟩ => ⟨List.mem_append_right _ ?_, hlt⟩
      exact (List.mem_cons.1 hi).resolve_left (Ne.symm hik)
  | case4 seen k rest hk ih =>
    refine ih (h.imp_right fun ⟨hi, hlt⟩ => ⟨(List.mem_cons.1 hi).resolve_left ?_, hlt⟩)
    rintro rfl
    exact hk hlt

/-- The marks are closed under successors, if at first they are but for what is to be visited. -/
theorem reachFrom_closed (h : ∀ i j, seen[i]? = some true → j ∈ next i → j < seen.size →
      seen[j]? = some true ∨ j ∈ work)
    (hi : (reachFrom next seen work)[i]? = some true) (hj : j ∈ next i) (hlt : j < seen.size) :
    (reachFrom next seen work)[j]? = some true := by
  fun_induction reachFrom next seen work with
  | case1 seen => exact (h i j hi hj hlt).resolve_right List.not_mem_nil
  | case2 seen k rest hk hmark ih =>
    refine ih (fun i j hi hj hlt => (h i j hi hj hlt).elim .inl fun hw => ?_) hi hlt
    rcases List.mem_cons.1 hw with rfl | hw
    · exact .inl (Array.getElem?_eq_some_iff.2 ⟨hk, hmark⟩)
    · exact .inr hw
  | case3 seen k rest hk hmark ih =>
    rw [Array.size_set] at ih
    refine ih (fun i j hi hj hlt => ?_) hi hlt
    by_cases hjk : k = j
    · subst hjk
      exact .inl (Array.getElem?_set_self hk)
    rw [Array.getElem?_set_ne hk hjk]
    by_cases hik : k = i
    · subst hik
      exact .inr (List.mem_append_left _ hj)
    · rw [Array.getElem?_set_ne hk hik] at hi
      refine (h i j hi hj hlt).imp_right fun hw => List.mem_append_right _ ?_
      exact (List.mem_cons.1 hw).resolve_left (Ne.symm hjk)
  | case4 seen k rest hk ih =>
    refine ih (fun i j hi hj hlt => (h i j hi hj hlt).imp_right fun hw => ?_) hi hlt
    refine (List.mem_cons.1 hw).resolve_left ?_
    rintro rfl
    exact hk hlt

end Reachable

namespace Subroutine

open Trace

theorem Members.has_eq_true {m : Members} {i : Nat} : m.has i = true ↔ m[i]? = some true := by
  unfold Members.has
  cases m[i]? <;> simp

namespace Program

variable {p : Program} {owned : Members} {start i j : Nat}

/-- A copy holds its entry. -/
theorem members_start (h : start < p.items.size) : (p.members owned start).has start = true := by
  refine Members.has_eq_true.2 (reachFrom_marks (.inr ⟨List.mem_singleton_self _, ?_⟩))
  rwa [Array.size_replicate]

/-- A copy holds what control goes to from what it holds. -/
theorem members_next (hi : (p.members owned start).has i = true) (hj : j ∈ p.successors owned i)
    (hlt : j < p.items.size) : (p.members owned start).has j = true := by
  refine Members.has_eq_true.2 (reachFrom_closed (fun i j hi => ?_) (Members.has_eq_true.1 hi) hj ?_)
  · rw [Array.getElem?_replicate] at hi
    split at hi <;> cases hi
  · rwa [Array.size_replicate]

section Successors

variable {insn : Insn} {l : Label}

/-- Control goes on behind an instruction. -/
theorem next_mem_successors (hi : p.items.toList[i]? = some (.insn insn)) (hterminal : insn.isTerminal = false) :
    i + 1 ∈ p.successors owned i := by
  rw [Array.getElem?_toList] at hi
  unfold successors
  simp only [hi, hterminal]
  split <;> simp

/-- Control goes where an instruction says. -/
theorem target_mem_successors (hi : p.items.toList[i]? = some (.insn insn)) (hl : l ∈ insn.targets)
    (hj : p.positions[l]? = some j) : j ∈ p.successors owned i := by
  have hmem : j ∈ p.places insn.targets := List.mem_filterMap.2 ⟨l, hl, hj⟩
  rw [Array.getElem?_toList] at hi
  unfold successors
  simp only [hi]
  split <;> simp [hmem]

/-- Control goes on behind a call. -/
theorem behind_mem_successors (hi : p.items.toList[i]? = some (.jsr l)) : i + 1 ∈ p.successors owned i := by
  rw [Array.getElem?_toList] at hi
  unfold successors
  simp only [hi]
  exact List.mem_cons_self ..

/-- Control goes to a handler that other code does not own. -/
theorem handler_mem_successors {item : Item} (hi : p.items.toList[i]? = some item) (hreal : item.isPseudo = false)
    {r : Region} (hr : r ∈ p.regions) (hcovers : r.covers i = true) (howned : owned.has r.handler = false) :
    r.handler ∈ p.successors owned i := by
  have hmem : r.handler ∈ p.handlers owned i := by
    refine List.mem_map.2 ⟨r, List.mem_filter.2 ⟨hr, ?_⟩, rfl⟩
    rw [hcovers, howned]
    rfl
  rw [Array.getElem?_toList] at hi
  unfold successors
  cases item with
  | insn insn =>
    have hpseudo : insn.isPseudo = false := hreal
    simp only [hi, hpseudo]
    exact List.mem_append_right _ hmem
  | jsr _ =>
    simp only [hi]
    exact List.mem_cons_of_mem _ hmem
  | ret _ =>
    simp only [hi]
    exact hmem

end Successors

def mainCopy (p : Program) : Copy :=
  { members := p.main, isMain := true, back := none, scopes := [] }

/-- What the copy for the call of an item holds. -/
def callee (p : Program) (j : Nat) : Members :=
  match p.items[j]?.bind (·.callee.bind (p.positions[·]?)) with
  | some entry => p.members p.main entry
  | none => #[]

/-- The calls that are still active in the handler of an exception: control is back in the innermost copy
that holds the handler. -/
def unwind (p : Program) (handler : Nat) : List Nat → List Nat
  | [] => []
  | j :: calls => if (p.callee j).has handler then j :: calls else p.unwind handler calls

end Program

/-! ## Where copies stand -/

section Standing

variable {p : Program} {c : Copy} {T U U' : Trace} {n m i j k : Nat} {pieces : List (Option Call × Trace)}
  {y : Option Call × Trace} {item : Item} {call : Option Call} {l : Label}

theorem Trace.Holds.left (h : T.Holds n (U ++ U')) : T.Holds n U :=
  (List.prefix_append U U').trans h

theorem Trace.Holds.right (h : T.Holds n (U ++ U')) : T.Holds (n + U.length) U' := by
  obtain ⟨W, hW⟩ := h
  refine ⟨W, ?_⟩
  rw [← List.drop_drop, ← hW, List.append_assoc, List.drop_left]

/-- Between two places are only marks. -/
def Trace.Quiet (T : Trace) (n m : Nat) : Prop :=
  ∃ W : Trace, T.Holds n W ∧ W.Silent ∧ m = n + W.length

theorem Trace.Holds.cons {x : Insn × Option Origin} (hx : T[n]? = some x) (h : T.Holds (n + 1) U) :
    T.Holds n (x :: U) := by
  obtain ⟨hn, rfl⟩ := List.getElem?_eq_some_iff.1 hx
  unfold Trace.Holds
  rw [List.drop_eq_getElem_cons hn]
  exact List.cons_prefix_cons.2 ⟨rfl, h⟩

theorem Trace.Quiet.refl (T : Trace) (n : Nat) : T.Quiet n n :=
  ⟨[], List.nil_prefix, nofun, rfl⟩

theorem Trace.Quiet.trans (h : T.Quiet n m) (h' : T.Quiet m k) : T.Quiet n k := by
  obtain ⟨W, ⟨V, hV⟩, hW, rfl⟩ := h
  obtain ⟨W', ⟨V', hV'⟩, hW', rfl⟩ := h'
  refine ⟨W ++ W', ⟨V', ?_⟩, hW.append hW', by rw [List.length_append, Nat.add_assoc]⟩
  rw [← List.drop_drop, ← hV, List.drop_left] at hV'
  rw [List.append_assoc, hV', hV]

theorem Pieces.get (h : Pieces p c p.numbered pieces) (hi : p.items.toList[i]? = some item) :
    ∃ y, pieces[i]? = some y ∧ Piece p c (item, i) y.1 y.2 := by
  refine forall₂_getElem? h ?_
  rw [Program.numbered, List.getElem?_zipIdx, hi, Option.map_some, Nat.zero_add]

theorem Pieces.of_piece (h : Pieces p c p.numbered pieces) (hy : pieces[i]? = some y) :
    ∃ item, p.items.toList[i]? = some item ∧ Piece p c (item, i) y.1 y.2 := by
  obtain ⟨⟨item, k⟩, hx, hpiece⟩ := forall₂_getElem? h.flip hy
  rw [Program.numbered, List.getElem?_zipIdx, Option.map_eq_some_iff] at hx
  obtain ⟨item', hitem, he⟩ := hx
  cases he
  rw [Nat.zero_add] at hpiece
  exact ⟨item, hitem, hpiece⟩

/-- Where the piece of an item stands. -/
theorem Trace.Holds.piece (h : T.Holds n (pieces.flatMap (·.2))) (hy : pieces[i]? = some y) :
    T.Holds (n + pieceStart (·.2) pieces i) y.2 := by
  obtain ⟨hi, rfl⟩ := List.getElem?_eq_some_iff.1 hy
  have hsplit : pieces.flatMap (·.2) =
      (pieces.take i).flatMap (·.2) ++ (pieces[i].2 ++ (pieces.drop (i + 1)).flatMap (·.2)) := by
    rw [← List.flatMap_cons, ← List.flatMap_append, List.getElem_cons_drop, List.take_append_drop]
  rw [hsplit] at h
  exact h.right.left

theorem Piece.silent (h : Piece p c (item, i) call U)
    (hmark : c.members.has i = true → item.isPseudo = true) : U.Silent := by
  cases h with
  | skipped _ => exact nofun
  | label | line => exact silent_mark
  | real hhas _ hrendered =>
    cases hrendered with
    | insn hreal => exact absurd (hmark hhas) (Bool.eq_false_iff.1 hreal)
    | jsr _ | ret _ => exact absurd (hmark hhas) Bool.false_ne_true

/-- A copy stands in the trace like this, and behind its entry so does the copy of everything it calls. -/
structure LaidAs (p : Program) (T : Trace) (c : Copy) (n : Nat) (pieces : List (Option Call × Trace)) :
    Prop where
  renders : Pieces p c p.numbered pieces
  holds : T.Holds n (pieces.flatMap (·.2))
  calls : ∀ call ∈ pieces.filterMap (·.1), ∃ scope m nesting, T.Stands call.entry m ∧
    Own p (p.members p.main call.entryIndex) scope ∧ Laid p p.main T nesting (c.called p p.main call scope) (m + 1)

theorem Laid.laidAs {nesting : Nat} (h : Laid p p.main T nesting c n) : ∃ pieces, LaidAs p T c n pieces := by
  cases nesting with
  | zero =>
    obtain ⟨pieces, hpieces, hholds, hnone⟩ := h
    exact ⟨pieces, hpieces, hholds, fun call hcall => absurd hcall (hnone call)⟩
  | succ nesting =>
    obtain ⟨pieces, hpieces, hholds, hcalls⟩ := h
    refine ⟨pieces, hpieces, hholds, fun call hcall => ?_⟩
    obtain ⟨scope, m, hentry, hown, hlaid⟩ := hcalls call hcall
    exact ⟨scope, m, nesting, hentry, hown, hlaid⟩

/-- What is written for a call. -/
theorem Piece.of_call {call : Call} (h : Piece p c (item, i) (some call) U) :
    ∃ (target : Label) (W : Trace), item = .jsr target ∧ c.members.has i = true ∧
      p.positions[target]? = some call.entryIndex ∧ W.Silent ∧
      U = W ++ [(.simple Op.aconstNull, some ⟨i, c.scopes⟩), (.jump Op.goto call.entry, some ⟨i, c.scopes⟩),
        (.label call.back, none)] := by
  cases h with
  | real hhas hW hrendered =>
    cases hrendered with
    | @jsr target _ hk => exact ⟨target, _, rfl, hhas, hk, hW, rfl⟩

namespace LaidAs

/-- Behind a call stands the label that the copy of what is called returns to. -/
theorem back {call : Call} (h : LaidAs p T c n pieces) (hy : pieces[j]? = some (some call, U)) :
    ∃ m, T.Stands call.back m ∧ m + 1 = n + pieceStart (·.2) pieces (j + 1) := by
  obtain ⟨item, -, hpiece⟩ := h.renders.of_piece hy
  obtain ⟨-, W, -, -, -, -, rfl⟩ := hpiece.of_call
  have hholds := (h.holds.piece hy).right
  refine ⟨n + pieceStart (·.2) pieces j + W.length + 2, hholds.get (Nat.lt_succ_self 2), ?_⟩
  rw [pieceStart_succ hy, List.length_append]
  simp only [List.length_cons, List.length_nil]
  omega

/-- A label stands in front of what is copied. -/
theorem label (h : LaidAs p T c n pieces) (hk : p.items.toList[k]? = some (.insn (.label l)))
    (hhas : c.members.has k = true) : T.Stands (rename c.scopes l) (n + pieceStart (·.2) pieces k) := by
  obtain ⟨⟨call, U⟩, hy, hpiece⟩ := h.renders.get hk
  have hholds := h.holds.piece hy
  cases hpiece with
  | skipped hnot =>
    rw [hnot] at hhas
    cases hhas
  | label => exact hholds.get Nat.one_pos
  | real _ _ hrendered =>
    cases hrendered with
    | insn hreal => cases hreal

/-- A mark is copied to a mark. -/
theorem mark (h : LaidAs p T c n pieces) (hi : p.items.toList[i]? = some item) (hpseudo : item.isPseudo = true) :
    T.Quiet (n + pieceStart (·.2) pieces i) (n + pieceStart (·.2) pieces (i + 1)) := by
  obtain ⟨y, hy, hpiece⟩ := h.renders.get hi
  refine ⟨y.2, h.holds.piece hy, hpiece.silent fun _ => hpseudo, ?_⟩
  rw [pieceStart_succ hy, Nat.add_assoc]

/-- The copy of an item that is no mark stands behind marks. -/
theorem real (h : LaidAs p T c n pieces) (hi : p.items.toList[i]? = some item) (hreal : item.isPseudo = false)
    (hhas : c.members.has i = true) : ∃ m call V U, pieces[i]? = some (call, V) ∧ Rendered p c i item call U ∧
      T.Quiet (n + pieceStart (·.2) pieces i) m ∧ T.Holds m U ∧
        m + U.length = n + pieceStart (·.2) pieces (i + 1) := by
  obtain ⟨⟨call, V⟩, hy, hpiece⟩ := h.renders.get hi
  have hholds := h.holds.piece hy
  cases hpiece with
  | skipped hnot =>
    rw [hnot] at hhas
    cases hhas
  | label | line => cases hreal
  | @real _ _ W U _ hW hrendered =>
    refine ⟨_, call, _, U, hy, hrendered, ⟨W, hholds.left, hW, rfl⟩, hholds.right, ?_⟩
    have hlength : List.length (W ++ U) = W.length + U.length := List.length_append
    rw [pieceStart_succ hy, Nat.add_assoc, Nat.add_assoc, ← hlength]
    rfl

/-- If a copy starts with its entry, only marks stand between its label and its entry. -/
theorem quiet_entry (h : LaidAs p T c (m + 1) pieces) (hentry : T.Stands l m)
    (hfirst : ∀ i < k, c.members.has i = true → ∀ item, p.items.toList[i]? = some item → item.isPseudo = true) :
    T.Quiet m (m + 1 + pieceStart (·.2) pieces k) := by
  have hsplit : pieces.flatMap (·.2) = (pieces.take k).flatMap (·.2) ++ (pieces.drop k).flatMap (·.2) := by
    rw [← List.flatMap_append, List.take_append_drop]
  refine ⟨(.label l, none) :: (pieces.take k).flatMap (·.2), .cons hentry (hsplit ▸ h.holds).left, ?_, ?_⟩
  · intro x hx
    rcases List.mem_cons.1 hx with rfl | hx
    · rfl
    obtain ⟨y, hy, hx⟩ := List.mem_flatMap.1 hx
    obtain ⟨i, hi⟩ := List.mem_iff_getElem?.1 hy
    have hik : i < k := by
      have hlt := (List.getElem?_eq_some_iff.1 hi).1
      rw [List.length_take] at hlt
      omega
    rw [List.getElem?_take_of_lt hik] at hi
    obtain ⟨item, hitem, hpiece⟩ := h.renders.of_piece hi
    exact hpiece.silent (fun hhas => hfirst i hik hhas item hitem) x hx
  · rw [List.length_cons, pieceStart]
    omega

end LaidAs

/-- The copy that runs while calls are active, the innermost first, and where it stands. -/
inductive Stacked (p : Program) (T : Trace) :
    List Nat → Copy → Nat → List (Option Call × Trace) → Prop
  | main {n : Nat} {pieces : List (Option Call × Trace)} : LaidAs p T p.mainCopy n pieces →
    Stacked p T [] p.mainCopy n pieces
  | call {calls : List Nat} {c : Copy} {n m j : Nat} {pieces pieces' : List (Option Call × Trace)} {call : Call}
      {U : Trace} {scope : Std.TreeMap Label Label} : Stacked p T calls c n pieces →
    pieces[j]? = some (some call, U) → Own p (p.members p.main call.entryIndex) scope →
    LaidAs p T (c.called p p.main call scope) (m + 1) pieces' →
    Stacked p T (j :: calls) (c.called p p.main call scope) (m + 1) pieces'

namespace Stacked

variable {calls : List Nat}

theorem laidAs (h : Stacked p T calls c n pieces) : LaidAs p T c n pieces := by
  cases h with
  | main h | call _ _ _ h => exact h

/-- What the copy holds is what its entry leads to, but for handlers of the main code. -/
theorem members (h : Stacked p T calls c n pieces) :
    ∃ owned start, c.members = p.members owned start ∧ ∀ k, owned.has k = true → p.main.has k = true := by
  cases h with
  | main _ => exact ⟨#[], 0, rfl, nofun⟩
  | call _ _ _ _ => exact ⟨p.main, _, rfl, fun _ => id⟩

/-- A call goes to a copy of what is called. -/
theorem enter {call : Call} (h : Stacked p T calls c n pieces) (hy : pieces[j]? = some (some call, U)) :
    ∃ scope m pieces', T.Stands call.entry m ∧
      Stacked p T (j :: calls) (c.called p p.main call scope) (m + 1) pieces' := by
  have hcall : call ∈ pieces.filterMap (·.1) := List.mem_filterMap.2 ⟨_, List.mem_of_getElem? hy, rfl⟩
  obtain ⟨scope, m, nesting, hentry, hown, hlaid⟩ := h.laidAs.calls call hcall
  obtain ⟨pieces', hlaid⟩ := hlaid.laidAs
  exact ⟨scope, m, pieces', hentry, h.call hy hown hlaid⟩

/-- A handler that the main code holds is called the same in the innermost copy that holds it. -/
theorem unwind (h : Stacked p T calls c n pieces) (hk : p.items.toList[k]? = some (.insn (.label l)))
    (hholds : c.members.has k = true ∨ p.main.has k = true) : ∃ c' n' pieces',
      Stacked p T (p.unwind k calls) c' n' pieces' ∧ c'.members.has k = true ∧
        rename c.scopes l = rename c'.scopes l := by
  induction h with
  | main h => exact ⟨_, _, _, .main h, hholds.elim id id, rfl⟩
  | @call calls c n m j pieces pieces' call U scope h hy hown hlaid ih =>
    obtain ⟨item, hitem, hpiece⟩ := h.laidAs.renders.of_piece hy
    obtain ⟨target, -, rfl, -, hentry, -⟩ := hpiece.of_call
    have hcallee : p.callee j = p.members p.main call.entryIndex := by
      rw [Array.getElem?_toList] at hitem
      unfold Program.callee
      rw [hitem, Option.bind_some, Item.callee, Option.bind_some, hentry]
    unfold Program.unwind
    rw [hcallee]
    by_cases hhas : (p.members p.main call.entryIndex).has k = true
    · rw [if_pos hhas]
      exact ⟨_, _, _, h.call hy hown hlaid, hhas, rfl⟩
    · rw [if_neg hhas]
      obtain ⟨c', n', pieces'', hstacked, hmember, hrename⟩ := ih (.inr (hholds.resolve_left hhas))
      refine ⟨c', n', pieces'', hstacked, hmember, ?_⟩
      rw [← hrename, Copy.called, rename_cons, hown l k hk (Bool.eq_false_iff.2 hhas), Option.getD_none]

section Control

variable {insn : Insn}

theorem has_next (h : Stacked p T calls c n pieces) (hi : c.members.has i = true)
    (hitem : p.items.toList[i]? = some (.insn insn)) (hterminal : insn.isTerminal = false)
    (hlt : i + 1 < p.items.size) : c.members.has (i + 1) = true := by
  obtain ⟨owned, start, hmembers, -⟩ := h.members
  rw [hmembers] at hi ⊢
  exact Program.members_next hi (Program.next_mem_successors hitem hterminal) hlt

theorem has_behind (h : Stacked p T calls c n pieces) (hi : c.members.has i = true)
    (hitem : p.items.toList[i]? = some (.jsr l)) (hlt : i + 1 < p.items.size) :
    c.members.has (i + 1) = true := by
  obtain ⟨owned, start, hmembers, -⟩ := h.members
  rw [hmembers] at hi ⊢
  exact Program.members_next hi (Program.behind_mem_successors hitem) hlt

theorem has_target (hp : p.Sound) (h : Stacked p T calls c n pieces) (hi : c.members.has i = true)
    (hitem : p.items.toList[i]? = some (.insn insn)) (hl : l ∈ insn.targets) (hk : p.positions[l]? = some k) :
    c.members.has k = true := by
  obtain ⟨owned, start, hmembers, -⟩ := h.members
  rw [hmembers] at hi ⊢
  exact Program.members_next hi (Program.target_mem_successors hitem hl hk)
    (List.getElem?_eq_some_iff.1 ((hp.place l k).1 hk)).1

/-- The copy holds the handlers of its instructions, or the main code does. -/
theorem has_handler (hp : p.Sound) (h : Stacked p T calls c n pieces) (hi : c.members.has i = true)
    (hitem : p.items.toList[i]? = some item) (hreal : item.isPseudo = false) {r : Region} (hr : r ∈ p.regions)
    (hcovers : r.covers i = true) : c.members.has r.handler = true ∨ p.main.has r.handler = true := by
  obtain ⟨owned, start, hmembers, howned⟩ := h.members
  rw [hmembers] at hi ⊢
  cases hown : owned.has r.handler with
  | true => exact .inr (howned _ hown)
  | false => exact .inl (Program.members_next hi (Program.handler_mem_successors hitem hreal hr hcovers hown)
      (List.getElem?_eq_some_iff.1 (hp.handlers r hr)).1)

end Control

end Stacked

end Standing

/-! ## Exceptions -/

section Ranges

variable {p : Program} {T : Trace} {e : Expansion} {n : Nat} {o : Origin} {caught : UInt16 → Prop}
  {covers : Region → Bool} {covers' : TryCatch → Bool}

/-- A region covers an item and catches exactly if a range made from it does so for a copy of the item. The
range has the handler under the name that it has in the copy. -/
theorem Standing.find_range {k : Nat} {r : Region} {scopes : Scopes} {ranges : List (Nat × TryCatch)}
    {used : Bool} (h : Standing T scopes k r ranges none used)
    (hstems : ∀ x ∈ T, Stems p.items.toList (x.1, Trace.source x)) (hnodup : T.placed.Nodup) (hn : T.Real n o)
    (hcovers : covers r = true ↔ r.covers o.item = true ∧ caught r.entry.catchType)
    (hcovers' : ∀ t, covers' t = true ↔ t.Covers (T.map (·.1)) n ∧ caught t.catchType) :
    if covers r then ∃ t, (group ranges k).find? covers' = some t ∧ t.handler = rename o.scopes r.entry.handler
    else (group ranges k).find? covers' = none := by
  have hmade {t : TryCatch} (ht : t ∈ group ranges k) (hc : t.Covers (T.map (·.1)) n) :
      t.catchType = r.entry.catchType ∧ r.covers o.item = true ∧
        t.handler = rename o.scopes r.entry.handler := by
    obtain ⟨hcatch, a, b, ha, hb, -, hall⟩ := h.made t (mem_group.1 ht)
    obtain ⟨a', b', ha', hb', han, hnb⟩ := (covers_iff hstems hnodup hn).1 hc
    have hsame {l : Label} {i j : Nat} (hi : T.Stands l i) (hj : T.Stands l j) : i = j :=
      filterMap_index_unique hnodup hi rfl hj rfl
    exact ⟨hcatch, hall n o (hsame ha ha' ▸ han) (hsame hb hb' ▸ hnb) hn⟩
  by_cases hr : covers r = true
  · rw [if_pos hr]
    obtain ⟨hitem, hcaught⟩ := hcovers.1 hr
    obtain ⟨t, ht, hspans⟩ := (h.complete n o hn hitem).resolve_right (by rintro ⟨_, _, ho, -⟩; cases ho)
    have hc : t.Covers (T.map (·.1)) n := (covers_iff hstems hnodup hn).2 hspans
    have hsome : ((group ranges k).find? covers').isSome = true := by
      rw [List.find?_isSome]
      refine ⟨t, mem_group.2 ht, (hcovers' t).2 ⟨hc, ?_⟩⟩
      rwa [(hmade (mem_group.2 ht) hc).1]
    obtain ⟨t', ht'⟩ := Option.isSome_iff_exists.1 hsome
    exact ⟨t', ht', (hmade (List.mem_of_find?_eq_some ht') ((hcovers' t').1 (List.find?_some ht')).1).2.2⟩
  · rw [if_neg hr, List.find?_eq_none]
    intro t ht hc
    obtain ⟨hc, hcaught⟩ := (hcovers' t).1 hc
    obtain ⟨hcatch, hitem, -⟩ := hmade ht hc
    exact hr (hcovers.2 ⟨hitem, hcatch ▸ hcaught⟩)

/-- The first range that covers a copy and catches is made from the first region that covers what it is a
copy of and catches. -/
theorem Settled.find_range (hs : Settled p T [] e) (caught : UInt16 → Prop) (hn : T.Real n o)
    (hcovers : ∀ r, covers r = true ↔ r.covers o.item = true ∧ caught r.entry.catchType)
    (hcovers' : ∀ t, covers' t = true ↔ t.Covers (T.map (·.1)) n ∧ caught t.catchType) :
    Option.Rel (fun r t => t.handler = rename o.scopes r.entry.handler) (p.regions.find? covers)
      ((groupRanges p.regions e.ranges.toList).find? covers') := by
  have hissued : T.issued [] = T.placed := List.append_nil _
  have hnodup : T.placed.Nodup := hissued ▸ hs.written.nodup
  suffices h : ∀ xs : List (Region × Nat), (∀ x ∈ xs, p.regions[x.2]? = some x.1) →
      Option.Rel (fun r t => t.handler = rename o.scopes r.entry.handler) ((xs.map (·.1)).find? covers)
        ((xs.map fun x => group e.ranges.toList x.2).flatten.find? covers') by
    have hall := h p.regions.zipIdx fun x hx => List.mem_zipIdx_iff_getElem?.1 hx
    rwa [List.zipIdx_map_fst] at hall
  intro xs hxs
  induction xs with
  | nil => exact .none
  | cons x xs ih =>
    have hx := (hs.closed [] x.2 x.1 (hxs x (List.mem_cons_self ..))).find_range hs.written.stems hnodup hn
      (hcovers x.1) hcovers'
    rw [List.map_cons, List.map_cons, List.flatten_cons, List.find?_append, List.find?_cons]
    split at hx
    · obtain ⟨t, ht, hhandler⟩ := hx
      rw [ht]
      simp only [‹covers x.1 = true›, Option.some_or]
      exact .some hhandler
    · rw [hx]
      simp only [‹¬ covers x.1 = true›, Option.none_or]
      exact ih fun y hy => hxs y (List.mem_cons_of_mem _ hy)

end Ranges

end Subroutine

end Interpose

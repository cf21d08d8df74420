import Interpose.Proofs.Code.ListedPaths
import Interpose.Proofs.Code.Nested
import Interpose.Proofs.Execution.Addresses
import Interpose.Proofs.Execution.Transparent
/-!
# Running subroutines

Code in which subroutines are still called runs on the items themselves (`Platform.runItems`): a call pushes
the address behind itself, and a return goes to the address in a local variable. Beside that it is told
which calls are active, for the copies: the copy that runs is the one for the innermost of them. A copy
returns behind its call, whatever address the return reads, and it starts with the first code that it holds.
As long as the run does not stray from that (`strays`), the expanded code runs the same way (`step_follows`).

Result:
* `expand_runs`: every run of the items is a run of the expanded code, in which each item is run as its copy,
  every exception goes to the copy of its handler, and nothing but addresses is different.
-/

namespace Interpose

namespace Platform

open Subroutine

section Machine

variable (P : Platform)

/-- How far a run of items has come. The calls that are active are kept beside, by their items, the latest
first. -/
inductive ItemStatus where
  | running (i : Nat) (s : P.Store) (calls : List Nat)
  | returned (value : List (Word P.Object)) (world : P.World)
  | thrown (o : P.Object) (world : P.World)
  | stuck

def caught (pool : Pool) (world : P.World) (o : P.Object) (catchType : UInt16) : Bool :=
  catchType = 0 || match pool.className catchType with
    | .ok name => P.isA world o name
    | .error _ => false

def raiseItem (pool : Pool) (p : Program) (i : Nat) (s : P.Store) (calls : List Nat) (world : P.World)
    (o : P.Object) : P.ItemStatus :=
  match p.regions.find? fun r => r.covers i && P.caught pool world o r.entry.catchType with
  | none => .thrown o world
  | some r => .running r.handler { s with world, stack := [.object o] } (p.unwind r.handler calls)

def stepItem (pool : Pool) (p : Program) (i : Nat) (s : P.Store) (calls : List Nat) : P.ItemStatus :=
  match p.items[i]? with
  | none => .stuck
  | some (.insn insn) =>
    match P.act pool insn s with
    | .next s => if insn.isTerminal then .stuck else .running (i + 1) s calls
    | .jump l s =>
      match p.positions[l]? with
      | some j => .running j s calls
      | none => .stuck
    | .throw world o => P.raiseItem pool p i s calls world o
    | .leave value world => .returned value world
    | .stuck => .stuck
  | some (.jsr target) =>
    match p.positions[target]? with
    | some j => .running j (s.push (.address (i + 1))) (i :: calls)
    | none => .stuck
  | some (.ret slot) =>
    match s.locals slot.toNat with
    | .address a => .running a s calls.tail
    | _ => .stuck

/-- At most so many items: what was executed, each with the store and the active calls in front of it, and
where the run is then. -/
def runItems (pool : Pool) (p : Program) :
    (fuel : Nat) → P.ItemStatus → List (Nat × P.Store × List Nat) × P.ItemStatus
  | fuel + 1, .running i s calls =>
    let (events, status) := runItems pool p fuel (P.stepItem pool p i s calls)
    ((i, s, calls) :: events, status)
  | _, status => ([], status)

end Machine

variable {P : Platform}

def ItemStatus.isThrown : P.ItemStatus → Bool
  | .thrown _ _ => true
  | _ => false

/-- Whether an item is run as its copies do not follow it: a return that is not to the innermost call, or a
call of a subroutine that has code in front of its entry. -/
def strays (p : Program) (x : Nat × P.Store × List Nat) : Bool :=
  match p.items[x.1]? with
  | some (.ret slot) => x.2.2.head?.all fun j => x.2.1.locals slot.toNat != .address (j + 1)
  | some (.jsr target) => (p.positions[target]?).any fun entry => (List.range entry).any fun i =>
    (p.members p.main entry).has i && (p.items[i]?).any (!·.isPseudo)
  | _ => false

/-- What is executed of the expanded code for one item. The code stands there with the items that it is
copied from. -/
inductive Mirrors (p : Program) (code : List (Insn × Option Nat)) :
    Nat × P.Store × List Nat → List (Nat × P.Store) → Prop
  | mark {i : Nat} {s : P.Store} {calls : List Nat} {item : Item} : p.items[i]? = some item →
    item.isPseudo = true → Mirrors p code (i, s, calls) []
  | copy {i n : Nat} {s : P.Store} {calls : List Nat} {item : Item} {insn : Insn} : p.items[i]? = some item →
    item.callee = none → code[n]? = some (insn, some i) → Mirrors p code (i, s, calls) [(n, s.forget)]
  | call {i n : Nat} {s : P.Store} {calls : List Nat} {target l : Label} : p.items[i]? = some (.jsr target) →
    code[n]? = some (.simple Op.aconstNull, some i) → code[n + 1]? = some (.jump Op.goto l, some i) →
    Mirrors p code (i, s, calls) [(n, s.forget), (n + 1, s.forget.push .null)]

/-- Where the runs have come is the same. -/
inductive Same (p : Program) (code : List (Insn × Option Nat)) : P.ItemStatus → P.Status → Prop
  | running {i n : Nat} {s : P.Store} {calls : List Nat} :
    (∀ item, p.items[i]? = some item → item.isPseudo = false → ∃ insn, code[n]? = some (insn, some i)) →
    Same p code (.running i s calls) (.running n s.forget)
  | returned {value : List (Word P.Object)} {w : P.World} : Same p code (.returned value w) (.returned value w)
  | thrown {o : P.Object} {w : P.World} : Same p code (.thrown o w) (.thrown o w)

/-- An exception that has gone out of the items has gone out of the expanded code. -/
theorem Same.of_isThrown {p : Program} {code : List (Insn × Option Nat)} {status : P.ItemStatus} {a : P.Status}
    (h : Same p code status a) (hthrown : status.isThrown = true) : ∃ o w, a = .thrown o w := by
  cases h with
  | thrown => exact ⟨_, _, rfl⟩
  | running _ | returned => cases hthrown

def listing (T : Trace) : List (Insn × Option Nat) :=
  T.map fun x => (x.1, Trace.source x)

theorem getElem?_listing {T : Trace} {k : Nat} {insn : Insn} {o : Origin} (hk : T[k]? = some (insn, some o)) :
    (listing T)[k]? = some (insn, some o.item) := by
  rw [listing, List.getElem?_map, hk]
  rfl

/-- What is executed but for marks. -/
def worked (b : Body) (events : List (Nat × P.Store)) : List (Nat × P.Store) :=
  events.filter fun x => b.insns[x.1]?.any fun insn => !insn.isPseudo

/-- A run comes from a status to another and executes this in between, and marks. -/
def Does (P : Platform) (q : Pool) (b : Body) (a : P.Status) (F : List (Nat × P.Store)) (c : P.Status) : Prop :=
  ∃ m, worked b (P.run q b m a).1 = F ∧ (P.run q b m a).2 = c

namespace Does

variable {q : Pool} {b : Body} {a c d : P.Status} {F G : List (Nat × P.Store)}

theorem refl : Does P q b a [] a :=
  ⟨0, by cases a <;> rfl, by cases a <;> rfl⟩

theorem trans (h : Does P q b a F c) (h' : Does P q b c G d) : Does P q b a (F ++ G) d := by
  obtain ⟨m, rfl, rfl⟩ := h
  obtain ⟨k, rfl, rfl⟩ := h'
  refine ⟨m + k, ?_, ?_⟩
  · rw [run_add, worked, List.filter_append]
    rfl
  · rw [run_add]

theorem mark {n : Nat} {s : P.Store} {insn : Insn} (hn : b.insns[n]? = some insn)
    (hpseudo : insn.isPseudo = true) :
    Does P q b (.running n s) [] (.running (n + 1) s) := by
  refine ⟨1, ?_, ?_⟩
  · change List.filter _ [(n, s)] = []
    simp [hn, hpseudo]
  · change P.step q b n s = _
    simp only [Platform.step, hn]
    cases insn <;> first | rfl | cases hpseudo

theorem step {n : Nat} {s : P.Store} {insn : Insn} (hn : b.insns[n]? = some insn)
    (hreal : insn.isPseudo = false) (hstep : P.step q b n s = a) : Does P q b (.running n s) [(n, s)] a := by
  refine ⟨1, ?_, hstep⟩
  change List.filter _ [(n, s)] = [(n, s)]
  simp [hn, hreal]

end Does

/-! ## Expanded code -/

/-- The code that a program is expanded to, as a body. -/
structure Expands (p : Program) (T : Trace) (e : Expansion) (b : Body) : Prop where
  sound : p.Sound
  settled : Settled p T [] e
  insns : b.insns = T.map (·.1)
  tryCatch : b.tryCatch = groupRanges p.regions e.ranges.toList

/-- Expanded code is where items are: in the copy that runs, and in front of the copy of the item but for
marks. -/
def At (p : Program) (T : Trace) (calls : List Nat) (i n : Nat) : Prop :=
  ∃ c lo pieces, Stacked p T calls c lo pieces ∧ (i < p.items.size → c.members.has i = true) ∧
    T.Quiet n (lo + pieceStart (·.2) pieces i)

/-- The run of the expanded code is where the run of items is. -/
inductive Follows (p : Program) (T : Trace) : P.ItemStatus → P.Status → Prop
  | running {i n : Nat} {s : P.Store} {calls : List Nat} : At p T calls i n →
    Follows p T (.running i s calls) (.running n s.forget)
  | returned {value : List (Word P.Object)} {w : P.World} : Follows p T (.returned value w) (.returned value w)
  | thrown {o : P.Object} {w : P.World} : Follows p T (.thrown o w) (.thrown o w)

theorem caught_eq_true {q : Pool} {w : P.World} {o : P.Object} {catchType : UInt16} :
    P.caught q w o catchType = true ↔ catchType = 0 ∨
      ∃ name, q.className catchType = .ok name ∧ P.isA w o name = true := by
  unfold caught
  cases q.className catchType <;> simp

/-! ## One instruction of the items -/

section Instruction

variable {q : Pool} {p : Program} {i : Nat} {s u : P.Store} {calls : List Nat} {insn : Insn}

theorem stepItem_next (hitem : p.items.toList[i]? = some (.insn insn)) (hact : P.act q insn s = .next u)
    (hterminal : insn.isTerminal = false) : P.stepItem q p i s calls = .running (i + 1) u calls := by
  simp only [stepItem, ← Array.getElem?_toList, hitem, hact, hterminal]
  rfl

/-- What an instruction can do that does not get stuck. -/
theorem stepItem_cases (hitem : p.items.toList[i]? = some (.insn insn))
    (hstuck : P.stepItem q p i s calls ≠ .stuck) :
    (∃ u, P.act q insn s = .next u ∧ insn.isTerminal = false ∧
      P.stepItem q p i s calls = .running (i + 1) u calls) ∨
    (∃ l k u, P.act q insn s = .jump l u ∧ p.positions[l]? = some k ∧
      P.stepItem q p i s calls = .running k u calls) ∨
    (∃ w o, P.act q insn s = .throw w o ∧ P.stepItem q p i s calls = P.raiseItem q p i s calls w o) ∨
    (∃ value w, P.act q insn s = .leave value w ∧ P.stepItem q p i s calls = .returned value w) := by
  cases hact : P.act q insn s with
  | next u =>
    have hterminal : insn.isTerminal = false := by
      by_contra hterminal
      rw [Bool.not_eq_false] at hterminal
      simp only [stepItem, ← Array.getElem?_toList, hitem, hact, hterminal] at hstuck
      exact hstuck rfl
    exact .inl ⟨u, rfl, hterminal, stepItem_next hitem hact hterminal⟩
  | jump l u =>
    obtain ⟨k, hk⟩ : ∃ k, p.positions[l]? = some k := by
      refine Option.ne_none_iff_exists'.1 fun hnone => hstuck ?_
      simp only [stepItem, ← Array.getElem?_toList, hitem, hact, hnone]
    refine .inr (.inl ⟨l, k, u, rfl, hk, ?_⟩)
    simp only [stepItem, ← Array.getElem?_toList, hitem, hact, hk]
  | throw w o =>
    refine .inr (.inr (.inl ⟨w, o, rfl, ?_⟩))
    simp only [stepItem, ← Array.getElem?_toList, hitem, hact]
  | leave value w =>
    refine .inr (.inr (.inr ⟨value, w, rfl, ?_⟩))
    simp only [stepItem, ← Array.getElem?_toList, hitem, hact]
  | stuck =>
    simp only [stepItem, ← Array.getElem?_toList, hitem, hact] at hstuck
    exact absurd rfl hstuck

end Instruction

/-- A mark is passed. -/
theorem mark_follows {q : Pool} {p : Program} {T : Trace} {i n : Nat} {calls : List Nat} {s : P.Store}
    {insn : Insn} (hat : At p T calls i n) (hitem : p.items.toList[i]? = some (.insn insn))
    (hpseudo : insn.isPseudo = true) :
    Follows p T (P.stepItem q p i s calls) (.running n s.forget) := by
  obtain ⟨c, lo, pieces, hstacked, hhas, hquiet⟩ := hat
  have hhas := hhas (List.getElem?_eq_some_iff.1 hitem).1
  have hterminal : insn.isTerminal = false := by
    cases insn <;> first | rfl | cases hpseudo
  have hact : P.act q insn s = .next s := by
    cases insn <;> first | rfl | cases hpseudo
  rw [stepItem_next hitem hact hterminal]
  exact .running ⟨c, lo, pieces, hstacked, hstacked.has_next hhas hitem hterminal,
    hquiet.trans (hstacked.laidAs.mark hitem hpseudo)⟩

namespace Expands

variable {q : Pool} {p : Program} {T : Trace} {e : Expansion} {b : Body} (h : Expands p T e b)
include h

theorem insn {n : Nat} {x : Insn × Option Origin} (hn : T[n]? = some x) : b.insns[n]? = some x.1 := by
  rw [h.insns, List.getElem?_map, hn, Option.map_some]

theorem nodup : T.placed.Nodup := by
  have hissued : T.issued [] = T.placed := List.append_nil _
  exact hissued ▸ h.settled.written.nodup

theorem place {l : Label} {n : Nat} (hn : T.Stands l n) : LastPlace b.insns l n := by
  have hplaced : (b.insns.filterMap Insn.placed).Nodup := by
    rw [h.insns, List.filterMap_map]
    exact h.nodup
  exact (lastPlace_iff hplaced).2 (h.insn hn)

/-- Marks lead on. -/
theorem does_quiet {n m : Nat} (hquiet : T.Quiet n m) (s : P.Store) :
    Does P q b (.running n s) [] (.running m s) := by
  obtain ⟨W, hholds, hW, rfl⟩ := hquiet
  induction W generalizing n with
  | nil => exact .refl
  | cons x W ih =>
    have hn : T[n]? = some x := hholds.get (Nat.succ_pos _)
    have hpseudo : x.1.isPseudo = true := by
      have hstems := h.settled.written.stems x (List.mem_of_getElem? hn)
      rwa [Stems, Trace.source, hW x (List.mem_cons_self ..)] at hstems
    have hrest : T.Holds (n + 1) W := Trace.Holds.right (U := [x]) hholds
    have hlater := ih hrest fun y hy => hW y (List.mem_cons_of_mem _ hy)
    rw [List.length_cons, Nat.add_comm W.length, ← Nat.add_assoc]
    exact (Does.mark (h.insn hn) hpseudo).trans hlater

/-- An exception at a copy goes to the copy of the handler. -/
theorem raise {i n lo : Nat} {item : Item} {c : Copy} {pieces : List (Option Call × Trace)} {calls : List Nat}
    (hstacked : Stacked p T calls c lo pieces) (hhas : c.members.has i = true)
    (hitem : p.items.toList[i]? = some item) (hreal : item.isPseudo = false)
    (hn : T.Real n ⟨i, c.scopes⟩) (s : P.Store) (w : P.World) (o : P.Object) :
    Follows p T (P.raiseItem q p i s calls w o) (P.raise q b n s.forget w o) := by
  have hrel : Option.Rel (fun r t => t.handler = rename c.scopes r.entry.handler)
      (p.regions.find? fun r => r.covers i && P.caught q w o r.entry.catchType)
      (b.tryCatch.find? (P.catches q (fun l => (labelPositions b.insns)[l]?) w o n)) := by
    rw [h.tryCatch]
    exact h.settled.find_range (fun catchType => P.caught q w o catchType = true) hn
      (fun r => Iff.of_eq (Bool.and_eq_true ..)) fun t => by rw [catches_eq_true, caught_eq_true, h.insns]
  unfold raiseItem
  cases hr : p.regions.find? fun r => r.covers i && P.caught q w o r.entry.catchType with
  | none =>
    rw [hr] at hrel
    have hnone : b.tryCatch.find? (P.catches q (fun l => (labelPositions b.insns)[l]?) w o n) = none := by
      generalize b.tryCatch.find? _ = found at hrel
      cases hrel
      rfl
    rw [Platform.raise, hnone]
    exact .thrown
  | some r =>
    rw [hr] at hrel
    obtain ⟨t, hfind, hhandler⟩ : ∃ t,
        b.tryCatch.find? (P.catches q (fun l => (labelPositions b.insns)[l]?) w o n) = some t ∧
          t.handler = rename c.scopes r.entry.handler := by
      generalize b.tryCatch.find? _ = found at hrel
      cases hrel with
      | some hhandler => exact ⟨_, rfl, hhandler⟩
    have hmem := List.mem_of_find?_eq_some hr
    have hcovers : r.covers i = true := (Bool.and_eq_true_iff.1 (List.find?_some hr :)).1
    have hlabel := h.sound.handlers r hmem
    obtain ⟨c', lo', pieces', hstacked', hhas', hrename⟩ :=
      hstacked.unwind hlabel (hstacked.has_handler h.sound hhas hitem hreal hmem hcovers)
    have hplace := h.place (hstacked'.laidAs.label hlabel hhas')
    rw [← hrename, ← hhandler] at hplace
    rw [raise_handled hfind hplace]
    exact .running ⟨c', lo', pieces', hstacked', fun _ => hhas', .refl T _⟩

/-- What an instruction asks for is what its copy asks for. -/
theorem insn_follows {own : Operation → Prop} (hblind : P.Blind own) {i n lo : Nat} {calls : List Nat}
    {s : P.Store} {insn : Insn} {c : Copy} {pieces : List (Option Call × Trace)}
    (hown : ∀ op ∈ Operation.ofInsn q insn, own op) (hstacked : Stacked p T calls c lo pieces)
    (hhas : c.members.has i = true) (hitem : p.items.toList[i]? = some (.insn insn))
    (hreal : insn.isPseudo = false) (hn : T[n]? = some (insn.retarget (rename c.scopes), some ⟨i, c.scopes⟩))
    (hm : n + 1 = lo + pieceStart (·.2) pieces (i + 1)) (hstuck : P.stepItem q p i s calls ≠ .stuck) :
    Follows p T (P.stepItem q p i s calls) (P.step q b n s.forget) := by
  have hcopy {a : P.Action} (hact : P.act q insn s = a) (ha : a ≠ .stuck) :
      P.act q (insn.retarget (rename c.scopes)) s.forget = a.forget (rename c.scopes) := by
    subst hact
    exact act_forget hblind hown _ ha
  obtain ⟨u, hact, hterminal, hstep⟩ | ⟨l, k, u, hact, hk, hstep⟩ | ⟨w, o, hact, hstep⟩ |
    ⟨value, w, hact, hstep⟩ := stepItem_cases hitem hstuck
  · rw [hstep, step_next (h.insn hn) (hcopy hact nofun) ((Insn.isTerminal_retarget ..).trans hterminal), hm]
    exact .running ⟨c, lo, pieces, hstacked, hstacked.has_next hhas hitem hterminal, .refl T _⟩
  · have htarget := hstacked.has_target h.sound hhas hitem (mem_targets_of_jump hact) hk
    have hplace := h.place (hstacked.laidAs.label ((h.sound.place l k).1 hk) htarget)
    rw [hstep, step_jump (h.insn hn) (hcopy hact nofun) hplace]
    exact .running ⟨c, lo, pieces, hstacked, fun _ => htarget, .refl T _⟩
  · rw [hstep, step_throw (h.insn hn) (hcopy hact nofun)]
    exact h.raise hstacked hhas hitem hreal ⟨_, hn⟩ s w o
  · rw [hstep, step_leave (h.insn hn) (hcopy hact nofun)]
    exact .returned

/-- A call goes to the copy of what is called, with null for the address. -/
theorem call_follows {i n lo : Nat} {calls : List Nat} {s : P.Store} {target : Label} {c : Copy} {call : Call}
    {V : Trace} {pieces : List (Option Call × Trace)} (hstacked : Stacked p T calls c lo pieces)
    (hitem : p.items.toList[i]? = some (.jsr target)) (hk : p.positions[target]? = some call.entryIndex)
    (hy : pieces[i]? = some (some call, V))
    (hnull : T[n]? = some (.simple Op.aconstNull, some ⟨i, c.scopes⟩))
    (hgoto : T[n + 1]? = some (.jump Op.goto call.entry, some ⟨i, c.scopes⟩))
    (hstray : strays p (i, s, calls) = false) :
    ∃ a, Does P q b (.running n s.forget) [(n, s.forget), (n + 1, s.forget.push .null)] a ∧
      Follows p T (P.stepItem q p i s calls) a := by
  obtain ⟨scope, m, pieces', hentry, hstacked'⟩ := hstacked.enter hy
  have hitem' := hitem
  rw [Array.getElem?_toList] at hitem'
  have hstep : P.stepItem q p i s calls =
      .running call.entryIndex (s.push (.address (i + 1))) (i :: calls) := by
    simp only [stepItem, hitem', hk]
  have hfirst : Does P q b (.running n s.forget) [(n, s.forget)] (.running (n + 1) (s.forget.push .null)) :=
    .step (h.insn hnull) rfl (step_next (h.insn hnull) rfl rfl)
  have hsecond : Does P q b (.running (n + 1) (s.forget.push .null)) [(n + 1, s.forget.push .null)]
      (.running m (s.forget.push .null)) :=
    .step (h.insn hgoto) rfl (step_jump (h.insn hgoto) rfl (h.place hentry))
  refine ⟨_, hfirst.trans hsecond, ?_⟩
  rw [hstep]
  refine .running (s := s.push (.address (i + 1))) ⟨_, _, pieces', hstacked', fun hlt => ?_, ?_⟩
  · exact Program.members_start hlt
  · refine hstacked'.laidAs.quiet_entry hentry fun k hlt hhas item hk' => ?_
    rw [Array.getElem?_toList] at hk'
    simp only [strays, hitem', hk, Option.any_some, List.any_eq_false, List.mem_range] at hstray
    have hmark := hstray k hlt
    simp only [hk', Option.any_some, Bool.and_eq_true, not_and, Bool.not_eq_true', Bool.not_eq_false] at hmark
    exact hmark hhas

/-- A return to the innermost call goes behind it, out of its copy. -/
theorem ret_follows {i n lo : Nat} {calls : List Nat} {s : P.Store} {slot : UInt16} {c : Copy} {back : Label}
    {pieces : List (Option Call × Trace)} (hstacked : Stacked p T calls c lo pieces)
    (hitem : p.items.toList[i]? = some (.ret slot)) (hback : c.back = some back)
    (hgoto : T[n]? = some (.jump Op.goto back, some ⟨i, c.scopes⟩))
    (hstray : strays p (i, s, calls) = false) :
    ∃ a, Does P q b (.running n s.forget) [(n, s.forget)] a ∧ Follows p T (P.stepItem q p i s calls) a := by
  have hitem' := hitem
  rw [Array.getElem?_toList] at hitem'
  cases hstacked with
  | main _ => cases hback
  | @call calls c n' m j pieces pieces' call U scope hstacked hy hown hlaid =>
    cases hback
    have haddress : s.locals slot.toNat = .address (j + 1) := by
      simpa only [strays, hitem', List.head?_cons, Option.all_some, bne_eq_false_iff_eq] using hstray
    have hstep : P.stepItem q p i s (j :: calls) = .running (j + 1) s calls := by
      simp only [stepItem, hitem', haddress]
      rfl
    obtain ⟨k, hstands, hk⟩ := hstacked.laidAs.back hy
    refine ⟨_, .step (h.insn hgoto) rfl (step_jump (h.insn hgoto) rfl (h.place hstands)), ?_⟩
    rw [hstep]
    obtain ⟨item, hcaller, hpiece⟩ := hstacked.laidAs.renders.of_piece hy
    obtain ⟨target, -, rfl, hhas, -⟩ := hpiece.of_call
    refine .running ⟨c, n', pieces, hstacked, hstacked.has_behind hhas hcaller, [(.label call.back, none)],
      .cons hstands List.nil_prefix, Trace.silent_mark, hk.symm⟩

/-- One item. -/
theorem step_follows {own : Operation → Prop} (hblind : P.Blind own)
    (hown : ∀ insn, .insn insn ∈ p.items.toList → ∀ op ∈ Operation.ofInsn q insn, own op) {i n : Nat}
    {calls : List Nat} {s : P.Store} (hat : At p T calls i n) (hstray : strays p (i, s, calls) = false)
    (hstuck : P.stepItem q p i s calls ≠ .stuck) :
    ∃ F a, Does P q b (.running n s.forget) F a ∧
      Mirrors p (listing T) (i, s, calls) F ∧
        Follows p T (P.stepItem q p i s calls) a := by
  obtain ⟨item, hitem'⟩ : ∃ item, p.items[i]? = some item := by
    refine Option.ne_none_iff_exists'.1 fun hnone => hstuck ?_
    simp only [stepItem, hnone]
  have hitem := hitem'
  rw [← Array.getElem?_toList] at hitem
  by_cases hpseudo : item.isPseudo = true
  · cases item with
    | insn insn =>
      exact ⟨[], _, .refl, .mark hitem' hpseudo, mark_follows hat hitem hpseudo⟩
    | jsr _ | ret _ => cases hpseudo
  have hreal : item.isPseudo = false := Bool.eq_false_iff.2 hpseudo
  obtain ⟨c, lo, pieces, hstacked, hhas, hquiet⟩ := hat
  have hhas := hhas (List.getElem?_eq_some_iff.1 hitem).1
  obtain ⟨m, call, V, U, hy, hrendered, hmarks, hholds, hlength⟩ := hstacked.laidAs.real hitem hreal hhas
  have hdoes : Does P q b (.running n s.forget) [] (.running m s.forget) := h.does_quiet (hquiet.trans hmarks) _
  cases hrendered with
  | @insn insn _ =>
    have hm : T[m]? = _ := hholds.get Nat.one_pos
    refine ⟨_, _, hdoes.trans (.step (h.insn hm) ((Insn.isPseudo_retarget ..).trans hreal) rfl),
      .copy hitem' rfl (getElem?_listing hm), ?_⟩
    exact h.insn_follows hblind (hown _ (List.mem_of_getElem? hitem)) hstacked hhas hitem hreal hm hlength hstuck
  | jsr hk =>
    have hnull : T[m]? = _ := hholds.get (Nat.succ_pos 2)
    have hgoto : T[m + 1]? = _ := hholds.get (Nat.lt_add_of_pos_left (n := 1) Nat.two_pos)
    obtain ⟨a, ha, hfollows⟩ := h.call_follows hstacked hitem hk hy hnull hgoto hstray
    exact ⟨_, a, hdoes.trans ha, .call hitem' (getElem?_listing hnull) (getElem?_listing hgoto), hfollows⟩
  | ret hback =>
    have hgoto : T[m]? = _ := hholds.get Nat.one_pos
    obtain ⟨a, ha, hfollows⟩ := h.ret_follows hstacked hitem hback hgoto hstray
    exact ⟨_, a, hdoes.trans ha, .copy hitem' rfl (getElem?_listing hgoto), hfollows⟩

/-- A run of items. -/
theorem run_follows {own : Operation → Prop} (hblind : P.Blind own)
    (hown : ∀ insn, .insn insn ∈ p.items.toList → ∀ op ∈ Operation.ofInsn q insn, own op) {fuel : Nat}
    {status : P.ItemStatus} {a : P.Status} (hfollows : Follows p T status a)
    (hstrays : ∀ x ∈ (P.runItems q p fuel status).1, strays p x = false)
    (hstuck : (P.runItems q p fuel status).2 ≠ .stuck) :
    ∃ Fs a', Does P q b a Fs.flatten a' ∧
      List.Forall₂ (Mirrors p (listing T)) (P.runItems q p fuel status).1 Fs ∧
      Follows p T (P.runItems q p fuel status).2 a' := by
  induction fuel generalizing status a with
  | zero =>
    cases status <;> exact ⟨[], a, .refl, .nil, hfollows⟩
  | succ fuel ih =>
    cases hfollows with
    | returned | thrown => exact ⟨[], _, .refl, .nil, by constructor⟩
    | @running i n s calls hat =>
      have hnot : P.stepItem q p i s calls ≠ .stuck := by
        intro hstep
        apply hstuck
        rw [runItems, hstep]
        cases fuel <;> rfl
      obtain ⟨F, a₁, hdoes, hmirrors, hfollows⟩ :=
        h.step_follows hblind hown hat (hstrays _ (List.mem_cons_self ..)) hnot
      obtain ⟨Fs, a₂, hdoes', hall, hend⟩ :=
        ih hfollows (fun x hx => hstrays x (List.mem_cons_of_mem _ hx)) hstuck
      exact ⟨F :: Fs, a₂, hdoes.trans hdoes', .cons hmirrors hall, hend⟩

/-- In front of an item that is no mark the expanded code comes to the copy of the item. -/
theorem comes_same {status : P.ItemStatus} {a : P.Status} (hfollows : Follows p T status a) :
    ∃ a', Does P q b a [] a' ∧ Same p (listing T) status a' := by
  cases hfollows with
  | returned => exact ⟨_, .refl, .returned⟩
  | thrown => exact ⟨_, .refl, .thrown⟩
  | @running i n s calls hat =>
    obtain ⟨c, lo, pieces, hstacked, hhas, hquiet⟩ := hat
    by_cases hreal : ∃ item, p.items[i]? = some item ∧ item.isPseudo = false
    · obtain ⟨item, hitem, hreal⟩ := hreal
      have hhas := hhas (Array.getElem?_eq_some_iff.1 hitem).1
      rw [← Array.getElem?_toList] at hitem
      obtain ⟨m, call, V, U, -, hrendered, hmarks, hholds, -⟩ := hstacked.laidAs.real hitem hreal hhas
      refine ⟨_, h.does_quiet (hquiet.trans hmarks) _, .running fun _ _ _ => ?_⟩
      have hm {insn : Insn} (hU : U[0]? = some (insn, some ⟨i, c.scopes⟩)) :
          (listing T)[m]? = some (insn, some i) := by
        refine getElem?_listing (o := ⟨i, c.scopes⟩) ?_
        rw [← Nat.add_zero m, hholds.get (List.getElem?_eq_some_iff.1 hU).1, hU]
      cases hrendered with
      | insn _ | jsr _ | ret _ => exact ⟨_, hm rfl⟩
    · exact ⟨_, .refl, .running fun item hitem hitem' => absurd ⟨item, hitem, hitem'⟩ hreal⟩

end Expands

/-- Every run of items is a run of the code that they are expanded to. The code stands beside the items that
it is copied from, and what is executed of it, but for marks, is for each item the copy of the item, with null
in place of every address. A call is a null push and a jump there, a return a jump, and an exception goes to
the copy of the handler that it goes to. Left out are runs that get stuck, and runs that stray: that return
to a call that is not the innermost one, or call a subroutine with code in front of its entry. -/
theorem expand_runs {own : Operation → Prop} (hblind : P.Blind own) {items : List Item}
    {tryCatch : List TryCatch} {next : Label} (h : Sound items tryCatch next) {regions : List Region}
    (hregions : tryCatch.mapM (region (itemPositions items)) = .ok regions) {e : Expanded}
    (he : expand items tryCatch next = .ok e) {q : Pool}
    (hown : ∀ insn, .insn insn ∈ items → ∀ op ∈ Operation.ofInsn q insn, own op) {b : Body}
    (hinsns : b.insns = e.insns) (htable : b.tryCatch = e.tryCatch) :
    ∃ code : List (Insn × Option Nat), code.map (·.1) = b.insns ∧ (∀ x ∈ code, Stems items x) ∧
      ∀ (s : P.Store) (fuel : Nat),
        (∀ x ∈ (P.runItems q (program items regions) fuel (.running 0 s [])).1,
          strays (program items regions) x = false) →
        (P.runItems q (program items regions) fuel (.running 0 s [])).2 ≠ .stuck → ∃ m Fs,
          List.Forall₂ (Mirrors (program items regions) code)
            (P.runItems q (program items regions) fuel (.running 0 s [])).1 Fs ∧
          worked b (P.run q b m (.running 0 s.forget)).1 = Fs.flatten ∧
          Same (program items regions) code (P.runItems q (program items regions) fuel (.running 0 s [])).2
            (P.run q b m (.running 0 s.forget)).2 := by
  obtain ⟨regions', hregions', hexpands⟩ := h.expands
  cases hregions.symm.trans hregions'
  rw [he] at hexpands
  obtain ⟨T, e', hsettled, -, hlaid, rfl⟩ := hexpands
  have hcode : e'.code.toList = T.map (·.1) := hsettled.written.code
  have hexp : Expands (program items regions) T e' b :=
    ⟨h.program hregions, hsettled, hinsns.trans hcode, htable⟩
  refine ⟨listing T, ?_, ?_, fun s fuel hstrays hstuck => ?_⟩
  · rw [listing, List.map_map, hexp.insns]
    rfl
  · intro x hx
    obtain ⟨y, hy, rfl⟩ := List.mem_map.1 hx
    exact hsettled.written.stems y hy
  · obtain ⟨pieces, hpieces⟩ := Laid.laidAs (p := program items regions) hlaid
    have hstart : At (program items regions) T [] 0 0 :=
      ⟨_, 0, pieces, .main hpieces, fun hlt => Program.members_start hlt, .refl T 0⟩
    obtain ⟨Fs, a, hdoes, hmirrors, hfollows⟩ :=
      hexp.run_follows hblind hown (.running (s := s) hstart) hstrays hstuck
    obtain ⟨a', hdoes', hsame⟩ := hexp.comes_same (q := q) hfollows
    obtain ⟨m, hworked, rfl⟩ := hdoes.trans hdoes'
    exact ⟨m, Fs, hmirrors, by rw [hworked, List.append_nil], hsame⟩

end Platform

namespace Machine

/-- Division and `Math.abs` come out the same whatever is below the numbers that they work on. -/
theorem own_local {op : Operation} (hop : isOwn op = true) {heap : Heap} {st : List (Word Nat)}
    (hst : perform op heap st ≠ .stuck) : ∃ top rest, st = top ++ rest ∧ top.map Word.forget = top ∧
      ((∃ heap' o, ∀ rest, perform op heap (top ++ rest) = .thrown heap' o) ∨
        ∃ value, value.map Word.forget = value ∧
          ∀ rest, perform op heap (top ++ rest) = .done heap (value ++ rest)) := by
  cases op with
  | simple op =>
    simp only [isOwn, Bool.and_eq_true, bne_iff_ne, ne_eq] at hop
    by_cases hdiv : op = Op.idiv
    · subst hdiv
      change divide heap st ≠ .stuck at hst
      unfold divide at hst
      split at hst
      · rename_i b a rest
        refine ⟨[.int b, .int a], rest, rfl, rfl, ?_⟩
        by_cases hzero : b = 0
        · exact .inl ⟨heap ++ [Cell.exception], heap.length, fun _ => if_pos hzero⟩
        · exact .inr ⟨[.int (a / b)], rfl, fun _ => if_neg hzero⟩
      · exact absurd rfl hst
    · simp only [perform, hdiv, hop.1, hop.2, if_false] at hst
      exact absurd rfl hst
  | method op m =>
    simp only [isOwn, Bool.and_eq_true, beq_iff_eq] at hop
    obtain ⟨rfl, rfl⟩ := hop
    simp only [perform, if_true, callStatic_absolute] at hst ⊢
    split at hst
    · rename_i n rest
      exact ⟨[.int n], rest, rfl, rfl, .inr ⟨[_], rfl, fun _ => rfl⟩⟩
    · exact absurd rfl hst
  | _ => cases hop

/-- So they do not look at addresses. -/
theorem blind : platform.Blind fun op => isOwn op = true where
  done {op heap st heap' st'} hop hdone := by
    change perform op heap st = .done heap' st' at hdone
    change perform op heap (st.map Word.forget) = .done heap' (st'.map Word.forget)
    obtain ⟨top, rest, rfl, htop, h⟩ := own_local hop (fun hst => nomatch hst.symm.trans hdone)
    rw [List.map_append, htop]
    rcases h with ⟨_, _, h⟩ | ⟨value, hvalue, h⟩
    · cases (h rest).symm.trans hdone
    · cases (h rest).symm.trans hdone
      rw [h, List.map_append, hvalue]
  thrown {op heap st heap' o} hop hthrown := by
    change perform op heap st = .thrown heap' o at hthrown
    change perform op heap (st.map Word.forget) = .thrown heap' o
    obtain ⟨top, rest, rfl, htop, h⟩ := own_local hop (fun hst => nomatch hst.symm.trans hthrown)
    rw [List.map_append, htop]
    rcases h with ⟨_, _, h⟩ | ⟨_, _, h⟩
    · rw [h, ← h rest, hthrown]
    · cases (h rest).symm.trans hthrown

end Machine

open Subroutine Platform Weave in
/-- Seven divided by zero: the handler calls the `finally` and throws on, and so does the copy of it. -/
theorem expand_runs_sharedFinally : ∃ items placed regions b code,
    sharedFinally.Symbolic items placed ∧
    (sharedFinally.ranges items).mapM (region (itemPositions placed)) = .ok regions ∧
    decode sharedFinally = .ok b ∧ (∀ x ∈ code, Stems placed x) ∧ ∃ m Fs,
      List.Forall₂ (Mirrors (program placed regions) code)
        (Machine.platform.runItems absolutePool (program placed regions) 40 (.running 0 sevenAndZero [])).1 Fs ∧
      worked b (Machine.platform.run absolutePool b m (.running 0 sevenAndZero.forget)).1 = Fs.flatten ∧
      ∃ o heap, (Machine.platform.run absolutePool b m (.running 0 sevenAndZero.forget)).2 = .thrown o heap := by
  have hrun : Option.any (fun _ => true) (Except.toOption (do
      let items ← readItems sharedFinally.code
      let placed ← placeMarks (items.map fun x => (x.1, x.2.retarget (sharedFinally.offsetLabels items).of))
        sharedFinally.code.length (sharedFinally.offsetLabels items) (linesByOffset sharedFinally.lineEntries)
      let regions ← (sharedFinally.ranges items).mapM (region (itemPositions placed))
      let e ← expand placed (sharedFinally.ranges items) (sharedFinally.offsetLabels items).size
      let run := Machine.platform.runItems absolutePool (program placed regions) 40 (.running 0 sevenAndZero [])
      if placed.any Item.isSubroutine && placed.all (fun x =>
          x.insn?.all fun insn => (Operation.ofInsn absolutePool insn).all Machine.isOwn) &&
        run.2.isThrown && run.1.all (fun x => !strays (program placed regions) x) then pure e
      else throw (.subroutine 0))) = true := by
    cbv
  obtain ⟨e, hrun, -⟩ := any_toOption.1 hrun
  obtain ⟨items, hitems, hrun⟩ := bind_eq_ok.1 hrun
  obtain ⟨placed, hplaced, hrun⟩ := bind_eq_ok.1 hrun
  obtain ⟨regions, hregions, hrun⟩ := bind_eq_ok.1 hrun
  obtain ⟨e', he, hrun⟩ := bind_eq_ok.1 hrun
  dsimp only at hrun
  split at hrun
  · rename_i hall
    simp only [Bool.and_eq_true, List.all_eq_true, Bool.not_eq_true'] at hall
    obtain ⟨⟨⟨hany, hown⟩, hthrown⟩, hstrays⟩ := hall
    have hsymbolic : sharedFinally.Symbolic items placed := ⟨hitems, hplaced⟩
    have hdecode := CodeAttribute.decode_eq_ok.2 ⟨items, placed, hsymbolic, .inr ⟨hany, e', he, rfl⟩⟩
    obtain ⟨code, -, hstems, hruns⟩ := expand_runs Machine.blind hsymbolic.sound hregions he
      (q := absolutePool) (fun insn hinsn op hop => by
        have := hown _ hinsn
        simp only [Item.insn?, Option.all_some] at this
        rw [hop] at this
        exact this)
      (b := { sharedFinally.straightBody items placed with
        insns := e'.insns, tryCatch := e'.tryCatch, nextLabel := e'.nextLabel, declaredFrames := [] }) rfl rfl
    obtain ⟨m, Fs, hmirrors, hworked, hsame⟩ := hruns sevenAndZero 40 hstrays (by
      intro hstuck
      rw [hstuck] at hthrown
      cases hthrown)
    exact ⟨items, placed, regions, _, code, hsymbolic, hregions, hdecode, hstems, m, Fs, hmirrors, hworked,
      hsame.of_isThrown hthrown⟩
  · cases hrun

end Interpose

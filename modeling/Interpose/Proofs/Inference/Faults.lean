import Interpose.Proofs.Inference.Run
/-!
# Faults of single steps

A run that has used up its steps fails with a fault of its own. No instruction and no delivery has that
fault, so it says nothing else.

* `execute_settles`: an instruction fails for reasons of its own.
* `Progress.step_settles`: so does a step of the inference.
-/

namespace Interpose

/-- The computation does not fail for want of steps. -/
def Settles {α : Type} (x : Except CodeError α) : Prop :=
  x ≠ .error .unsettled

namespace Settles

variable {α β : Type}

theorem ok (a : α) : Settles (.ok a) := nofun

theorem error {e : CodeError} (h : e ≠ .unsettled) : Settles (.error e : Except CodeError α) :=
  fun he => h (Except.error.inj he)

theorem bind {x : Except CodeError α} {f : α → Except CodeError β} (hx : Settles x)
    (hf : ∀ a, Settles (f a)) : Settles (x >>= f) := by
  cases x with
  | error e => exact error fun he => hx (congrArg Except.error he)
  | ok a => exact hf a

theorem map {x : Except CodeError α} (hx : Settles x) (f : α → β) : Settles (x.map f) := by
  cases x with
  | error e => exact error fun he => hx (congrArg Except.error he)
  | ok a => exact ok _

theorem format (x : Except FormatError α) : Settles (x.mapError .format) := by
  cases x with
  | error e => exact error nofun
  | ok a => exact ok a

theorem mapM {f : α → Except CodeError β} (hf : ∀ a, Settles (f a)) (xs : List α) :
    Settles (xs.mapM f) := by
  induction xs with
  | nil => exact ok _
  | cons x xs ih =>
    rw [List.mapM_cons]
    exact (hf x).bind fun _ => ih.bind fun _ => ok _

end Settles

namespace Machine

variable (m : Machine) (i n : Nat)

theorem pop_settles : Settles (m.pop i) := by
  unfold pop
  split
  · exact .ok _
  · exact .error nofun

theorem popSlots_settles : Settles (m.popSlots i n) := by
  unfold popSlots
  split
  · exact .error nofun
  · exact .ok _

theorem dropSlots_settles : Settles (m.dropSlots i n) :=
  (m.popSlots_settles i n).map _

theorem popReference_settles : Settles (m.popReference i) := by
  refine (m.pop_settles i).bind fun (v, m) => ?_
  dsimp only
  split
  · exact .ok _
  · exact .error nofun

theorem load_settles (op : Opcode) (slot : Nat) : Settles (m.load i op slot) := by
  unfold load
  split
  · exact .error nofun
  · repeat' split
    all_goals first | exact .ok _ | exact .error nofun

theorem store_settles (op : Opcode) (slot : Nat) : Settles (m.store i op slot) := by
  unfold store
  dsimp only
  split
  · exact (m.popSlots_settles i 2).bind fun _ => (Settles.ok _).bind fun _ => .ok _
  · split
    · exact (m.popReference_settles i).bind fun _ => .ok _
    · exact (m.pop_settles i).bind fun _ => .ok _

theorem simple_settles (op : Opcode) : Settles (m.simple i op) := by
  unfold simple
  split
  · exact .error nofun
  · exact (m.dropSlots_settles i _).bind fun _ => .ok _
  · exact (m.popReference_settles i).bind fun _ => .ok _
  · exact (m.pop_settles i).bind fun (_, m) => (m.popReference_settles i).bind fun _ => .ok _
  · exact (m.popSlots_settles i _).bind fun _ => .ok _
  · exact (m.popSlots_settles i _).bind fun _ => .ok _

end Machine

theorem constantType_settles (pool : Pool) (i : Nat) (index : UInt16) :
    Settles (constantType pool i index) := by
  refine (Settles.format _).bind fun c => ?_
  split
  all_goals first
    | exact .ok _
    | exact .error nofun
    | exact (Settles.format _).bind fun _ => (Settles.format _).bind fun _ => .ok _

theorem callSiteDescriptor_settles (pool : Pool) (i : Nat) (index : UInt16) :
    Settles (callSiteDescriptor pool i index) := by
  refine (Settles.format _).bind fun c => ?_
  split
  · exact (Settles.format _).bind fun _ => .format _
  · exact .error nofun

/-- An instruction fails for reasons of its own. -/
theorem execute_settles (pool : Pool) (owner : String) (i : Nat) (insn : Insn) (m : Machine) :
    Settles (execute pool owner i insn m) := by
  cases insn with
  | label _ | line _ => exact .ok m
  | simple op => exact m.simple_settles i op
  | int op value =>
    simp only [execute]
    split
    · refine (m.pop_settles i).bind fun (_, m) => ?_
      dsimp only
      split
      · exact .ok _
      · exact .error nofun
    · exact .ok _
  | var op slot =>
    simp only [execute]
    split
    · exact m.load_settles i op _
    · exact m.store_settles i op _
  | iinc slot _ =>
    simp only [execute]
    split
    · exact .ok m
    · exact .error nofun
  | type op index =>
    refine (Settles.format _).bind fun name => ?_
    dsimp only
    split
    · exact .ok _
    · split
      · exact (m.pop_settles i).bind fun _ => .ok _
      · exact (m.popReference_settles i).bind fun _ => .ok _
  | field op index =>
    refine (Settles.format _).bind fun ref => (Settles.format _).bind fun type => ?_
    dsimp only
    split
    · exact .ok _
    · split
      · exact m.dropSlots_settles i _
      · split
        · exact (m.popReference_settles i).bind fun _ => .ok _
        · exact (m.dropSlots_settles i _).bind fun m => (m.popReference_settles i).bind fun _ => .ok _
  | method op index =>
    refine (Settles.format _).bind fun ref => (Settles.format _).bind fun descriptor =>
      (m.dropSlots_settles i _).bind fun m => ?_
    dsimp only
    split
    · exact .ok _
    · exact (m.popReference_settles i).bind fun _ => .ok _
  | dynamic index =>
    exact (callSiteDescriptor_settles pool i index).bind fun _ =>
      (m.dropSlots_settles i _).bind fun _ => .ok _
  | ldc index => exact (constantType_settles pool i index).bind fun _ => .ok _
  | jump op _ =>
    simp only [execute]
    split
    · exact .ok m
    · split
      · exact m.dropSlots_settles i 2
      · exact m.dropSlots_settles i 1
  | tableSwitch _ _ _ | lookupSwitch _ _ => exact m.dropSlots_settles i 1
  | multiNewArray index dims =>
    exact (m.dropSlots_settles i _).bind fun _ => (Settles.format _).bind fun _ => .ok _

theorem labelAt_settles (positions : Std.TreeMap Label Nat) (l : Label) :
    Settles (labelAt positions l) := by
  unfold labelAt
  split
  · exact .ok _
  · exact .error nofun

namespace Analysis

section Faults

variable (m : Method)

theorem Method.deliveries_settles (i : Nat) (insn : Insn) (f : Frame) :
    Settles (m.deliveries i insn f) := by
  refine (execute_settles _ _ _ _ _).bind fun after =>
    (Settles.mapM (fun l => (labelAt_settles _ l).bind fun _ => .ok _) _).bind fun jumps => ?_
  dsimp only
  split
  · exact (Settles.ok _).bind fun _ => .ok _
  · split
    · exact (Settles.ok _).bind fun _ => .ok _
    · exact Settles.bind (.error nofun) fun _ => .ok _

theorem Method.arrive_settles (t : Nat) (e : Option Frame) (g : Frame) :
    Settles (m.arrive t e g) := by
  rw [arrive_eq]
  refine Settles.map ?_ _
  cases e with
  | none => exact .ok g
  | some f =>
    simp only [Option.elim_some, Frame.merge]
    split
    · exact .ok _
    · exact .error nofun

theorem Progress.deliver_settles (p : Progress) (t : Nat) (g : Frame) :
    Settles (p.deliver m t g) := by
  refine (m.arrive_settles _ _ _).bind fun merged => ?_
  split
  · exact .ok p
  · dsimp only
    split
    · exact .ok _
    · exact .ok _

theorem Progress.step_settles (p : Progress) (i : Nat) : Settles (p.step m i) := by
  unfold step
  dsimp only
  split
  · refine (m.deliveries_settles _ _ _).bind fun (ds, after) => ?_
    dsimp only
    generalize ({ p with
      queued := p.queued.setIfInBounds i false
      maxStack := max p.maxStack after.peak
      maxLocals := max p.maxLocals after.locals.length } : Progress) = p
    induction ds generalizing p with
    | nil => exact .ok p
    | cons d ds ih =>
      rw [List.foldlM_cons]
      exact (p.deliver_settles m _ _).bind fun p => ih p
  · exact .ok _

end Faults

end Analysis

end Interpose

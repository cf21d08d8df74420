import Interpose.Proofs.Code.Spoken
/-!
# Source lines without dead code

An instruction stems from the source line of the last mark in front of it. Leaving out dead code keeps
a mark when control reaches the first instruction behind it that takes bytes (`Body.Live`). The reach
of a mark may begin with dead code and still hold live code, behind a label. That code is then counted
among the instructions of an earlier mark (`withoutDeadCode_attributes`).
-/

namespace Interpose

/-- The last mark of a kind in front of an instruction stands at `j`. -/
structure LastMark (insns : List Insn) (kind : Nat → Prop) (j i : Nat) : Prop where
  lt : j < i
  line : ∃ number, insns[j]? = some (.line number)
  holds : kind j
  last : ∀ x number, j < x → x < i → insns[x]? = some (.line number) → ¬ kind x

/-- An instruction stems from the source line of the mark at `j`. -/
def Attributes (insns : List Insn) (j i : Nat) : Prop :=
  LastMark insns (fun _ => True) j i

/-- An instruction that stays is attributed to the last mark in front of it that is live. -/
theorem Thinned.attributes_iff {all kept : List Insn} {old : Nat → Nat} {live : Nat → Prop}
    (hold : Thinned all kept old) {k : Nat} (hk : k < kept.length)
    (hlive : ∀ x number, x < old k → all[x]? = some (.line number) →
      ((∃ k', k' < kept.length ∧ old k' = x) ↔ live x)) {j : Nat} (hj : j < kept.length) :
    Attributes kept j k ↔ LastMark all live (old j) (old k) := by
  constructor
  · rintro ⟨hjk, ⟨number, hline⟩, -, hlast⟩
    have hlt := hold.mono j k hjk hk
    have hmark := (hold.insn j hj).trans hline
    refine ⟨hlt, ⟨number, hmark⟩, (hlive _ _ hlt hmark).1 ⟨j, hj, rfl⟩, fun x n hx hxk hxn hl => ?_⟩
    obtain ⟨x', hx', rfl⟩ := (hlive x n hxk hxn).2 hl
    rw [hold.insn x' hx'] at hxn
    exact hlast x' n ((hold.lt_iff hj hx').1 hx) ((hold.lt_iff hx' hk).1 hxk) hxn trivial
  · rintro ⟨hjk, ⟨number, hline⟩, -, hlast⟩
    refine ⟨(hold.lt_iff hj hk).1 hjk, ⟨number, (hold.insn j hj).symm.trans hline⟩, trivial,
      fun x n hx hxk hxn _ => ?_⟩
    have hxlt : x < kept.length := by omega
    have hmark := (hold.insn x hxlt).trans hxn
    have hlt := hold.mono x k hxk hk
    exact hlast (old x) n (hold.mono j x hx hxlt) hlt hmark ((hlive _ _ hlt hmark).1 ⟨x, hxlt, rfl⟩)

/-- Without dead code a reached instruction is attributed to the last mark in front of it from which
live code follows. So it keeps its mark when live code follows that, and only then. -/
theorem withoutDeadCode_attributes {b : Body} {context : MethodContext} {pool : Pool}
    {h : Hierarchy} {a : Analysis} (ha : analyze b context pool h = .ok a) :
    ∃ old, Thinned b.insns (withoutDeadCode b a).insns old ∧
      ∀ i insn, b.insns[i]? = some insn → insn.isPseudo = false → b.Reached i →
        ∃ k, k < (withoutDeadCode b a).insns.length ∧ old k = i ∧
          (∀ j, j < (withoutDeadCode b a).insns.length →
            (Attributes (withoutDeadCode b a).insns j k ↔ LastMark b.insns b.Live (old j) i)) ∧
          ∀ j, Attributes b.insns j i →
            ((∃ j', j' < (withoutDeadCode b a).insns.length ∧ old j' = j ∧
              Attributes (withoutDeadCode b a).insns j' k) ↔ b.Live j) := by
  obtain ⟨m, -, hm, -⟩ := Analysis.analyze_eq_ok ha
  obtain ⟨old, hold, hstays⟩ := keepLive_thinned (b.insns.zip a.frames.toList)
  rw [List.map_fst_zip (Nat.le_of_eq (by rw [Array.length_toList, Analysis.analyze_size ha]))] at hold
  refine ⟨old, hold, fun i insn hi hreal hreached => ?_⟩
  have hlt := (List.getElem?_eq_some_iff.1 hi).1
  obtain ⟨k, hk, rfl⟩ := (hstays i).1
    (Analysis.staysAt_of_reached hm ha ((reached_iff hm).2 hreached) hlt)
  -- in front of the instruction, a mark stays when what follows it is live
  have stays : ∀ x number, x < old k → b.insns[x]? = some (.line number) →
      ((∃ k', k' < (withoutDeadCode b a).insns.length ∧ old k' = x) ↔ b.Live x) := by
    intro x number hx hmark
    obtain ⟨f, hf⟩ := Analysis.exists_zipped ha hmark
    rw [← Analysis.staysAt_iff ha (fun _ _ => ⟨_, insn, hx, hi, hreal⟩) hf nofun]
    exact (hstays x).symm
  have attributes {j : Nat} (hj : j < (withoutDeadCode b a).insns.length) :=
    hold.attributes_iff hk stays hj
  refine ⟨k, hk, rfl, fun j hj => attributes hj, fun j hmark => ⟨?_, fun hlive => ?_⟩⟩
  · rintro ⟨j', hj', rfl, hattr⟩
    exact ((attributes hj').1 hattr).holds
  · obtain ⟨number, hline⟩ := hmark.line
    obtain ⟨j', hj', rfl⟩ := (stays j number hmark.lt hline).2 hlive
    exact ⟨j', hj', rfl, (attributes hj').2
      ⟨hmark.lt, hmark.line, hlive, fun x n hx hxk hxn _ => hmark.last x n hx hxk hxn trivial⟩⟩

/-- A line that begins with an instruction that is jumped over. -/
def skippedStart : Body :=
  Body.ofInsns [.line 1, .jump Op.goto 0, .line 7, .simple Op.nop, .label 0, .simple Op.returnVoid]

/-- The line of an instruction is lost when the line begins with dead code. -/
theorem withoutDeadCode_attributes_skippedStart :
    ∃ a, analyze skippedStart ⟨"A", Access.staticFlag, "f", ⟨[], .void⟩⟩ .empty .flat = .ok a ∧
      skippedStart.Reached 5 ∧ Attributes skippedStart.insns 2 5 ∧
      ∃ old k, Thinned skippedStart.insns (withoutDeadCode skippedStart a).insns old ∧ old k = 5 ∧
        ¬ ∃ j, j < (withoutDeadCode skippedStart a).insns.length ∧ old j = 2 ∧
          Attributes (withoutDeadCode skippedStart a).insns j k := by
  have hok : (analyze skippedStart ⟨"A", Access.staticFlag, "f", ⟨[], .void⟩⟩ .empty
      .flat).toOption.any (fun a => (a.frame 3).isNone && (a.frame 5).isSome) := by decide +kernel
  obtain ⟨a, ha, hframes⟩ := any_toOption.1 hok
  rw [Bool.and_eq_true, Option.isNone_iff_eq_none, Option.isSome_iff_exists] at hframes
  have hreached := (Analysis.analyze_frame_iff ha).1 hframes.2
  have hnop : skippedStart.insns[3]? = some (.simple Op.nop) := rfl
  have hdead : ¬ skippedStart.Live 2 := by
    rw [Body.live_iff (by decide) hnop rfl, ← Analysis.analyze_frame_iff ha, hframes.1]
    · exact nofun
    · intro n x h1 h2 hx
      obtain rfl : n = 2 := by omega
      cases hx
      rfl
  have hmark : Attributes skippedStart.insns 2 5 := by
    refine ⟨by decide, ⟨7, rfl⟩, trivial, fun x number h1 h2 hx _ => ?_⟩
    obtain rfl | rfl : x = 3 ∨ x = 4 := by omega
    · cases hx
    · cases hx
  obtain ⟨old, hold, hall⟩ := withoutDeadCode_attributes ha
  obtain ⟨k, -, hk, -, hkept⟩ := hall 5 (.simple Op.returnVoid) rfl rfl hreached
  exact ⟨a, ha, hreached, hmark, old, k, hold, hk, fun h => hdead ((hkept 2 hmark).1 h)⟩

end Interpose

import Interpose.Proofs.Code.Inverse
import Interpose.Proofs.Execution.Transparent
import Interpose.Proofs.Weave.Copies
/-!
# Where exceptions go

The exception table of woven code has the entries around single invocations first, then those of the
method in their order, and the one of the method as a whole last. The copy of an instruction is protected
by the entries that covered the instruction (`Output.KeepsAt`), and so is the handler of an invocation,
which throws again what it has reported. So an exception comes to the handler it came to before, and to
the handler of the method as a whole where there was none (`Output.HandsOn`).

Result:
* `method_routes`: what is said above holds of every method that is woven.
-/

namespace Interpose

/-! ## Entries and ranges -/

/-- The entry protects the code at an offset. -/
def ExceptionEntry.Protects (x : ExceptionEntry) (pc : Nat) : Prop :=
  x.startPc.toNat ≤ pc ∧ pc < x.endPc.toNat

instance (x : ExceptionEntry) (pc : Nat) : Decidable (x.Protects pc) :=
  inferInstanceAs (Decidable (_ ∧ _))

/-- The entry that an exception thrown at an offset goes to: the first one that protects the offset and
catches the exception. Which classes of the pool catch it is given. -/
def CodeAttribute.catcher (c : CodeAttribute) (catches : UInt16 → Bool) (pc : Nat) :
    Option ExceptionEntry :=
  c.exceptions.find? fun x => decide (x.Protects pc) && catches x.catchType

/-- The table entry that an exception thrown by an instruction goes to. -/
def Body.catcher (b : Body) (catches : UInt16 → Bool) (i : Nat) : Option TryCatch :=
  b.tryCatch.find? fun t => decide (t.Covers b.insns i) && catches t.catchType

/-- An entry protects the offset of an instruction if the range it was written for covers the
instruction. -/
theorem Layout.Settled.protects_iff {pool : Pool} {l : Layout} {insns : List Insn}
    (hs : l.Settled pool insns) (hshort : l.length ≤ maxCodeLength) {t : TryCatch} {x : ExceptionEntry}
    (hx : Encode.exceptionEntry l t = .ok x) {k : Nat} {insn : Insn} (hk : insns[k]? = some insn)
    (hreal : insn.isPseudo = false) : x.Protects (l.offsetAt k) ↔ t.Covers insns k := by
  obtain ⟨i, j, -, hi, hj, -, hstart, hstop, -, -⟩ := hs.range_of_entry hshort hx
  have hlt := (List.getElem?_eq_some_iff.1 hk).1
  have hlo : l.offsetAt i ≤ l.offsetAt k ↔ i ≤ k := by
    refine ⟨fun h => ?_, fun h => hs.offsetAt_mono h (Nat.le_of_lt hlt)⟩
    by_contra hki
    exact absurd (hs.offsetAt_lt hk hreal (Nat.lt_of_not_le hki) (Nat.le_of_lt hi.lt)) (Nat.not_lt_of_le h)
  have hhi : l.offsetAt k < l.offsetAt j ↔ k < j := by
    refine ⟨fun h => ?_, fun h => hs.offsetAt_lt hk hreal h (Nat.le_of_lt hj.lt)⟩
    by_contra hjk
    exact absurd (hs.offsetAt_mono (Nat.le_of_not_lt hjk) (Nat.le_of_lt hlt)) (Nat.not_le_of_lt h)
  unfold ExceptionEntry.Protects TryCatch.Covers
  rw [hstart, hstop, hlo, hhi]
  constructor
  · exact fun h => ⟨i, j, hi, hj, h⟩
  · rintro ⟨i', j', hi', hj', h⟩
    rwa [hi'.unique hi, hj'.unique hj] at h

namespace Weave

open WeaveSite

/-! ## Ranges around invocations -/

theorem ranges_pieces (w : Parts) :
    w.pieces.flatMap Segment.ranges = w.segments.flatMap Segment.ranges := by
  have hbare : (w.prologue.map fun i => ({ insn := i } : Segment)).flatMap Segment.ranges = [] := by
    rw [List.flatMap_map]
    exact List.flatMap_eq_nil_iff.2 fun _ _ => rfl
  rw [Parts.pieces, List.flatMap_append, hbare, List.nil_append]
  cases w.segments <;> rfl

namespace WovenFrom

section Ranges

variable {s : WeaveSite} {q : Pool} {given woven : Body} {entry i : Nat} {w : Parts} {g : Segment}
  {l : Nat} (hw : WovenFrom s q given entry w woven)
include hw

/-- Every range is that of an invocation with a handler of its own. -/
theorem range_of_mem {r : Range} (hr : r ∈ w.segments.flatMap Segment.ranges) :
    ∃ (i : Nat) (g : Segment) (l : Nat) (op : Opcode) (index : UInt16), w.pieces[i]? = some g ∧ given.insns[i]? = some (.method op index) ∧
      given.nextLabel ≤ l ∧ Segment.Guarded s g l ∧ r = ⟨l, l + 1, l + 2⟩ := by
  rw [← ranges_pieces, List.mem_flatMap] at hr
  obtain ⟨g, hg, hr⟩ := hr
  obtain ⟨i, hi⟩ := List.mem_iff_getElem?.1 hg
  obtain ⟨⟨op, index, hinsn⟩, l, hl, hguarded⟩ := hw.piece_guarded hi (List.ne_nil_of_mem hr)
  rw [hguarded.ranges, List.mem_singleton] at hr
  exact ⟨i, g, l, op, index, hi, hinsn ▸ hw.insn_of_piece hi, hl, hguarded, hr⟩

variable (hne : w.segments ≠ []) (hlabels : LabelsBelow given) (hg : w.pieces[i]? = some g)
  (hl : given.nextLabel ≤ l) (hguarded : Segment.Guarded s g l)
include hne hlabels hg hl hguarded

theorem range_places : 0 < w.spot i ∧ LastPlace woven.insns l (w.spot i - 1) ∧
    LastPlace woven.insns (l + 1) (w.spot i + 1) ∧
    LastPlace woven.insns (l + 2) (w.spot i + 1 + ((s.callReturnReport (l + 4)).length + 2)) := by
  obtain ⟨hfront, hback⟩ := hw.has_around hne hlabels hg
  exact hguarded.places hfront (Parts.spot_eq hg) hback hl

/-- Of what takes bytes, the range covers the copy of the invocation alone. -/
theorem range_covers_iff {t : TryCatch} (ht : Range.Settles q ⟨l, l + 1, l + 2⟩ t) {n : Nat} {insn : Insn}
    (hn : woven.insns[n]? = some insn) (hreal : insn.isPseudo = false) :
    t.Covers woven.insns n ↔ n = w.spot i := by
  obtain ⟨hpos, hstart, hstop, -⟩ := hw.range_places hne hlabels hg hl hguarded
  have hstart : LastPlace woven.insns t.start (w.spot i - 1) := by rwa [ht.start]
  have hstop : LastPlace woven.insns t.stop (w.spot i + 1) := by rwa [ht.stop]
  constructor
  · rintro ⟨a, b, ha, hb, han, hnb⟩
    rw [ha.unique hstart] at han
    rw [hb.unique hstop] at hnb
    have hmark : n ≠ w.spot i - 1 := by
      rintro rfl
      rw [hstart.1] at hn
      cases hn
      cases hreal
    omega
  · rintro rfl
    exact ⟨_, _, hstart, hstop, Nat.sub_le _ _, Nat.lt_succ_self _⟩

omit hl in
/-- The handler of an invocation stands in its piece. -/
theorem handler_in_piece : ∃ l', s.callThrowsReport l' ++ [Template.op Op.athrow] <+:
      w.code.drop (w.spot i + 1 + ((s.callReturnReport (l + 4)).length + 2) + 1) ∧
    w.spot i + 1 + ((s.callReturnReport (l + 4)).length + 2) + 1 + (s.callThrowsReport l').length <
      w.edge (i + 1) := by
  have hback := (hw.has_around hne hlabels hg).2
  have hedge := Parts.edge_next hg
  have hsplit : g.back = .place (l + 1) :: (s.callReturnReport (l + 4) ++
      ([Template.jump Op.goto (l + 3), .place (l + 2)] ++
        ((s.callThrowsReport (l + 4 + s.callReturnLabels) ++ [.op Op.athrow]) ++ [.place (l + 3)]))) := by
    rw [hguarded.back, guardedBack, List.append_assoc (s.callThrowsReport _)]
    rfl
  rw [hsplit] at hback hedge
  have hhandler := hback.tail.append_right.append_right.append_left
  refine ⟨l + 4 + s.callReturnLabels, List.prefix_iff_getElem?.2 fun j hj => ?_, ?_⟩
  · rw [List.getElem?_drop]
    have hcode := hhandler j _ (List.getElem?_eq_getElem hj)
    rw [← hcode]
    exact congrArg (w.code[·]?) (by simp only [List.length_cons, List.length_nil]; omega)
  · simp only [List.length_cons, List.length_append, List.length_nil] at hedge
    omega

end Ranges

section Whole

variable {s : WeaveSite} {q : Pool} {given woven : Body} {entry : Nat} {w : Parts}
  (hw : WovenFrom s q given entry w woven) (hlabels : LabelsBelow given)
include hw hlabels

omit hw hlabels in
/-- The only entry of the method as a whole is that of its handler. -/
theorem range_of_own {own : List TryCatch} {t : TryCatch} (hown : List.Forall₂ (Range.Settles q)
    (if s.wants .throws then [⟨w.start, w.start + 1, w.handler⟩] else []) own) (ht : t ∈ own) :
    s.wants .throws = true ∧ Range.Settles q ⟨w.start, w.start + 1, w.handler⟩ t := by
  by_cases hwants : s.wants .throws = true
  · rw [if_pos hwants] at hown
    obtain ⟨_, hr, hrange⟩ := (mem_forall₂ hown).2 _ ht
    exact ⟨hwants, List.mem_singleton.1 hr ▸ hrange⟩
  · rw [if_neg hwants] at hown
    cases hown
    cases ht

/-- The range of the method as a whole is that of the code behind the report of the start. -/
theorem own_covers_iff {t : TryCatch} (ht : Range.Settles q ⟨w.start, w.start + 1, w.handler⟩ t)
    {n : Nat} : t.Covers woven.insns n ↔ w.entrance ≤ n ∧ n < w.exit := by
  obtain ⟨hentrance, hexit⟩ := hw.own_places hlabels
  have hstart : LastPlace woven.insns t.start w.entrance := by rwa [ht.start]
  have hstop : LastPlace woven.insns t.stop w.exit := by rwa [ht.stop]
  constructor
  · rintro ⟨a, b, ha, hb, h⟩
    rwa [ha.unique hstart, hb.unique hstop] at h
  · exact fun h => ⟨_, _, hstart, hstop, h⟩

/-- The handler of the method stands behind its range. -/
theorem handler_place (hwants : s.wants .throws = true) :
    LastPlace woven.insns w.handler (w.exit + 1) := by
  have hfinish := hw.rebuilt.finish
  rw [if_pos hwants] at hfinish
  have hrest := (hw.has_rest hlabels).append_right.append_right.append_right
  rw [hfinish] at hrest
  refine hw.lastPlace_fresh hlabels ?_ hrest.tail.head
  exact Nat.le_trans hw.start_fresh (Nat.le_of_add_right_le hw.handler_behind)

end Whole

end WovenFrom

/-! ## What is written -/

/-- What a method is woven to, step by step. -/
structure Output (s : WeaveSite) (q : Pool) (given : Body) (entry : Nat) (c : CodeAttribute) where
  parts : Parts
  woven : Body
  made : WovenFrom s q given entry parts woven
  /-- Woven code without its dead code; number `k` of it had the number `old k`. -/
  live : Body
  old : Nat → Nat
  thinned : Thinned woven.insns live.insns old
  encoded : Encoded
  written : ∃ p, p.Within q ∧ encode live p = .ok encoded
  code : c.code = encoded.code
  exceptions : c.exceptions = encoded.exceptions

namespace Output

variable {s : WeaveSite} {q : Pool} {given : Body} {entry : Nat} {c : CodeAttribute}

section Definitions

variable (o : Output s q given entry c)

/-- What stands in woven code from a number on is written from an offset on. -/
def StartsAt (n pc : Nat) : Prop :=
  ∃ k, o.old k = n ∧ o.encoded.offsets[k]? = some pc

def Writes (n : Nat) (insn : Insn) (pc : Nat) : Prop :=
  insn.isPseudo = false ∧ ∃ k, o.live.insns[k]? = some insn ∧ o.old k = n ∧
    o.encoded.offsets[k]? = some pc

/-- The copy of an instruction of the method is written at an offset. -/
def Copies (i : Nat) (insn : Insn) (pc : Nat) : Prop :=
  given.insns[i]? = some insn ∧ o.Writes (o.parts.spot i) insn pc

/-- The entry is the one of the method: it protects the copies and leads to the copy of the handler. -/
structure Moved (t : TryCatch) (x : ExceptionEntry) : Prop where
  start : ∃ i, LastPlace given.insns t.start i ∧ o.StartsAt (o.parts.spot i) x.startPc.toNat
  stop : ∃ i, LastPlace given.insns t.stop i ∧ o.StartsAt (o.parts.spot i) x.endPc.toNat
  handler : ∃ i, LastPlace given.insns t.handler i ∧ o.StartsAt (o.parts.spot i) x.handlerPc.toNat
  catchType : x.catchType = t.catchType

/-- Of the entries of the method that are left, those that protect an offset are those that covered an
instruction, in their order. -/
def KeepsAt (kept : List ExceptionEntry) (i pc : Nat) : Prop :=
  List.Forall₂ o.Moved (given.tryCatch.filter fun t => t.Covers given.insns i)
    (kept.filter fun x => x.Protects pc)

/-- What is thrown at an offset goes where the method sends what an instruction throws, and to the
handler of the method as a whole only if the method sends it nowhere. -/
def HandsOn (own : List ExceptionEntry) (i pc : Nat) : Prop :=
  ∀ catches : UInt16 → Bool, ∃ x, Option.Rel o.Moved (given.catcher catches i) x ∧
    c.catcher catches pc = x.or (own.find? fun y => decide (y.Protects pc) && catches y.catchType)

/-- The entry protects nothing but the copy of an invocation. Its handler reports and throws again what
was thrown, where the same entries of the method protect it as the invocation. -/
structure GuardsCall (calls kept own : List ExceptionEntry) (i : Nat) (x : ExceptionEntry) : Prop where
  invocation : ∃ op index pc, o.Copies i (.method op index) pc
  protects : ∀ n insn pc, o.Writes n insn pc → (x.Protects pc ↔ n = o.parts.spot i)
  catches : q.className x.catchType = .ok throwableClass
  handler : ∃ n l, o.StartsAt n x.handlerPc.toNat ∧
    s.callThrowsReport l ++ [Template.op Op.athrow] <+: o.parts.code.drop (n + 1) ∧
    ∀ k insn pc, n < k → k ≤ n + 1 + (s.callThrowsReport l).length → o.Writes k insn pc →
      (∀ y ∈ calls, ¬ y.Protects pc) ∧ o.KeepsAt kept i pc ∧ o.HandsOn own i pc

/-- The entry protects all that is behind the entry point and the report of the start, but not the
handler of the method as a whole, which it leads to. -/
structure GuardsMethod (x : ExceptionEntry) : Prop where
  protects : ∀ n insn pc, o.Writes n insn pc →
    (x.Protects pc ↔ o.parts.entrance ≤ n ∧ n < o.parts.exit)
  catches : q.className x.catchType = .ok throwableClass
  handler : o.StartsAt (o.parts.exit + 1) x.handlerPc.toNat

/-- Where exceptions go in the code that is written, when its table consists of the entries around
invocations, those of the method that are left, and the one of the method as a whole. -/
structure Routed (calls kept own : List ExceptionEntry) : Prop where
  copied : ∀ i insn, given.Reached i → given.insns[i]? = some insn → insn.isPseudo = false →
    ∃ pc, o.Copies i insn pc
  moved : ∃ stays, List.Forall₂ o.Moved (given.tryCatch.filter stays) kept
  keeps : ∀ i insn pc, o.Copies i insn pc → o.KeepsAt kept i pc
  around : ∀ x ∈ calls, ∃ i, o.GuardsCall calls kept own i x
  guarded : ∀ i insn pc g, o.Copies i insn pc → o.parts.pieces[i]? = some g → g.ranges ≠ [] →
    ∃ x ∈ calls, x.Protects pc
  whole : if s.wants .throws then ∃ x, own = [x] ∧ o.GuardsMethod x else own = []
  /-- What the copy of an instruction throws. -/
  thrown : ∀ i insn pc, o.Copies i insn pc → (∀ x ∈ calls, ¬ x.Protects pc) → o.HandsOn own i pc
  /-- What an invocation with a handler of its own throws. -/
  caught : ∀ x ∈ calls, ∀ pc catches, x.Protects pc → catches x.catchType = true →
    ∃ y ∈ calls, y.Protects pc ∧ c.catcher catches pc = some y

/-- A table entry is written with the offsets of its labels, and protects what it covers. -/
structure Entered (t : TryCatch) (x : ExceptionEntry) : Prop where
  start : ∃ n, LastPlace o.woven.insns t.start n ∧ o.StartsAt n x.startPc.toNat
  stop : ∃ n, LastPlace o.woven.insns t.stop n ∧ o.StartsAt n x.endPc.toNat
  handler : ∃ n, LastPlace o.woven.insns t.handler n ∧ o.StartsAt n x.handlerPc.toNat
  catchType : x.catchType = t.catchType
  protects : ∀ {n insn pc}, o.Writes n insn pc → (x.Protects pc ↔ t.Covers o.woven.insns n)

/-- All that control reaches is written, and the table entries that cover any of it. -/
structure Complete (stays : TryCatch → Bool) : Prop where
  reached : ∀ {n insn}, o.woven.Reached n → o.woven.insns[n]? = some insn → insn.isPseudo = false →
    ∃ pc, o.Writes n insn pc
  keeps : ∀ {t}, t ∈ o.woven.tryCatch → ∀ {n insn pc}, o.Writes n insn pc →
    t.Covers o.woven.insns n → stays t = true
  covers : ∀ {t}, t ∈ o.woven.tryCatch → stays t = true →
    ∃ n insn pc, o.Writes n insn pc ∧ t.Covers o.woven.insns n
  entered : List.Forall₂ o.Entered (o.woven.tryCatch.filter stays) c.exceptions

end Definitions

section Written

variable {o : Output s q given entry c} {n pc : Nat} {insn : Insn}

theorem Writes.getElem? (h : o.Writes n insn pc) : o.woven.insns[n]? = some insn := by
  obtain ⟨-, k, hk, rfl, -⟩ := h
  rw [o.thinned.insn k (List.getElem?_eq_some_iff.1 hk).1, hk]

theorem Copies.lt {i : Nat} (h : o.Copies i insn pc) : i < given.insns.length :=
  (List.getElem?_eq_some_iff.1 h.1).1

variable {context : MethodContext} {p : Pool} {h : Hierarchy} {m : Analysis.Method} {a : Analysis}

theorem entered_of_entry {l : Layout} {t : TryCatch} {x : ExceptionEntry}
    (hs : l.Settled p o.live.insns) (hshort : l.length ≤ maxCodeLength)
    (ho : o.encoded.offsets = l.offsets.toArray) (hx : Encode.exceptionEntry l t = .ok x) :
    o.Entered t x := by
  obtain ⟨i, j, k, hi, hj, hk, hstart, hstop, hhandler, hcatch⟩ := hs.range_of_entry hshort hx
  have at_place {label : Label} {k : Nat} (hk : LastPlace o.live.insns label k) :
      LastPlace o.woven.insns label (o.old k) ∧ o.StartsAt (o.old k) (l.offsetAt k) := by
    refine ⟨(o.thinned.lastPlace hk.lt).2 hk, k, rfl, ?_⟩
    rw [ho, List.getElem?_toArray, hs.offset_eq hk.lt]
  refine ⟨⟨_, hstart ▸ at_place hi⟩, ⟨_, hstop ▸ at_place hj⟩, ⟨_, hhandler ▸ at_place hk⟩, hcatch, ?_⟩
  rintro n insn pc ⟨hreal, k, hinsn, rfl, hpc⟩
  have hlt := (List.getElem?_eq_some_iff.1 hinsn).1
  rw [ho, List.getElem?_toArray, hs.offset_eq hlt, Option.some.injEq] at hpc
  rw [← hpc, hs.protects_iff hshort hx hinsn hreal, o.thinned.covers_iff hlt]

/-- What is assembled is complete. -/
theorem complete (hof : m.Of o.woven context p h) (hpruned : Pruned m o.woven o.live o.old)
    (hlive : Assemble.live o.woven context p h = .ok (o.live, a)) (he : encode o.live p = .ok o.encoded) :
    ∃ stays, o.Complete stays := by
  obtain ⟨l, -, hl, hshort, -, ho, -, -, hentries⟩ := encode_eq_ok he
  have hs := Layout.ofInsns_settled hl
  obtain ⟨stays, htryCatch, hstays⟩ := hpruned.tryCatch
  have written {k : Nat} {insn : Insn} (hk : o.live.insns[k]? = some insn) (hreal : insn.isPseudo = false) :
      ∃ pc, o.Writes (o.old k) insn pc := by
    refine ⟨l.offsetAt k, hreal, k, hk, rfl, ?_⟩
    rw [ho, List.getElem?_toArray, hs.offset_eq (List.getElem?_eq_some_iff.1 hk).1]
  refine ⟨stays, ⟨?_, ?_, ?_, ?_⟩⟩
  · intro n insn hn hinsn hreal
    obtain ⟨k, hk, rfl⟩ := hpruned.reached n (hof.reached_iff.2 hn)
    rw [o.thinned.insn k hk] at hinsn
    exact written hinsn hreal
  · rintro t ht n insn pc ⟨hreal, k, hinsn, rfl, -⟩ hcovers
    exact hstays t ht k insn hinsn hreal
      ((o.thinned.covers_iff (List.getElem?_eq_some_iff.1 hinsn).1).1 hcovers)
  · intro t ht hstay
    obtain ⟨m', -, hm', -⟩ := Analysis.analyze_eq_ok (Analysis.live_reached hlive).1
    have hmem : t ∈ o.live.tryCatch := htryCatch ▸ List.mem_filter.2 ⟨ht, hstay⟩
    obtain ⟨g, -, hstart, hstop, -, -, hreal, -⟩ := (mem_forall₂ (Analysis.of_ofBody hm').guards).1 t hmem
    obtain ⟨k, insn, hlo, hhi, hinsn, hreal⟩ := anyReal_eq_true.1 hreal
    have hinsn : o.live.insns[k]? = some insn := List.getElem?_toArray.symm.trans hinsn
    obtain ⟨pc, hpc⟩ := written hinsn hreal
    exact ⟨_, insn, pc, hpc, (o.thinned.covers_iff (List.getElem?_eq_some_iff.1 hinsn).1).2
      ⟨_, _, hstart, hstop, hlo, hhi⟩⟩
  · rw [← htryCatch, o.exceptions]
    exact hentries.imp fun t x hx => entered_of_entry hs hshort ho hx

end Written

/-! ## The three parts of the table -/

section Table

variable (o : Output s q given entry c)

/-- The table that is written has the entries around invocations, those of the method and that of the
method as a whole, each part in its order. -/
structure Parted (stays : TryCatch → Bool) (around whole : List TryCatch)
    (calls kept own : List ExceptionEntry) : Prop where
  tryCatch : o.woven.tryCatch = around ++ given.tryCatch ++ whole
  ranges : List.Forall₂ (Range.Settles q) (o.parts.segments.flatMap Segment.ranges) around
  range : List.Forall₂ (Range.Settles q)
    (if s.wants .throws then [⟨o.parts.start, o.parts.start + 1, o.parts.handler⟩] else []) whole
  exceptions : c.exceptions = calls ++ kept ++ own
  calls : List.Forall₂ o.Entered (around.filter stays) calls
  kept : List.Forall₂ o.Entered (given.tryCatch.filter stays) kept
  own : List.Forall₂ o.Entered (whole.filter stays) own

variable {o} {stays : TryCatch → Bool}

theorem Complete.parted (hc : o.Complete stays) :
    ∃ around whole calls kept own, o.Parted stays around whole calls kept own := by
  obtain ⟨around, whole, htryCatch, hranges, hrange⟩ := o.made.tryCatch
  have hentered := hc.entered
  rw [htryCatch, List.filter_append, List.filter_append] at hentered
  obtain ⟨rest, own, hsplit, hrest, hown⟩ := forall₂_append_left hentered
  obtain ⟨calls, kept, rfl, hcalls, hkept⟩ := forall₂_append_left hrest
  exact ⟨around, whole, calls, kept, own, htryCatch, hranges, hrange, hsplit, hcalls, hkept, hown⟩

variable {around whole : List TryCatch} {calls kept own : List ExceptionEntry}
  (hc : o.Complete stays) (hp : o.Parted stays around whole calls kept own)
  (hne : o.parts.segments ≠ []) (hlabels : LabelsBelow given)
  (hbelow : ∀ t ∈ given.tryCatch, ∀ l ∈ [t.start, t.stop, t.handler], l < given.nextLabel)
include hne

section Kept

include hbelow

/-- An entry of the method is written with the offsets of the copies of its places. -/
theorem Entered.moved {t : TryCatch} {x : ExceptionEntry} (ht : t ∈ given.tryCatch)
    (hx : o.Entered t x) : o.Moved t x := by
  have copied {label : Label} {pc : Nat} (hl : label ∈ [t.start, t.stop, t.handler])
      (hplace : ∃ n, LastPlace o.woven.insns label n ∧ o.StartsAt n pc) :
      ∃ i, LastPlace given.insns label i ∧ o.StartsAt (o.parts.spot i) pc := by
    obtain ⟨n, hn, hat⟩ := hplace
    obtain ⟨i, rfl, hi⟩ := o.made.lastPlace_of_spot hne (hbelow t ht label hl) hn
    exact ⟨i, hi, hat⟩
  exact ⟨copied (List.mem_cons_self ..) hx.start,
    copied (List.mem_cons_of_mem _ (List.mem_cons_self ..)) hx.stop,
    copied (List.mem_cons_of_mem _ (List.mem_cons_of_mem _ (List.mem_singleton_self _))) hx.handler,
    hx.catchType⟩

include hp

theorem Parted.moved : List.Forall₂ (fun t x => o.Moved t x ∧ o.Entered t x)
    (given.tryCatch.filter stays) kept := by
  have hmem := (List.forall₂_and_left (p := (· ∈ given.tryCatch)) _ kept).2
    ⟨fun t ht => List.mem_of_mem_filter ht, hp.kept⟩
  exact hmem.imp fun t x h => ⟨h.2.moved hne hbelow h.1, h.2⟩

include hc hlabels

/-- From the copy of an instruction on to the next piece, the entries of the method protect what they
covered. -/
theorem Parted.keepsAt {i n pc : Nat} {insn : Insn} (hi : i < given.insns.length)
    (hn : o.Writes n insn pc) (hlo : o.parts.spot i ≤ n) (hhi : n < o.parts.edge (i + 1)) :
    o.KeepsAt kept i pc := by
  have hstays : given.tryCatch.filter (fun t => t.Covers given.insns i) =
      (given.tryCatch.filter stays).filter fun t => t.Covers given.insns i := by
    rw [List.filter_filter]
    refine List.filter_congr fun t ht => ?_
    by_cases hcovers : t.Covers given.insns i
    · obtain ⟨a, b, ha, hb, -⟩ := id hcovers
      have hwoven := (o.made.covers_from_spot hne hlabels ha hb hi hlo hhi).2 hcovers
      have hmem : t ∈ o.woven.tryCatch := by
        rw [hp.tryCatch]
        exact List.mem_append_left _ (List.mem_append_right _ ht)
      rw [hc.keeps hmem hn hwoven, Bool.and_true]
    · rw [decide_eq_false hcovers, Bool.false_and]
  unfold KeepsAt
  rw [hstays]
  refine (List.rel_filter ?_ (hp.moved hne hbelow)).imp fun t x h => h.1
  rintro t x ⟨hmoved, hentered⟩
  obtain ⟨a, ha, -⟩ := hmoved.start
  obtain ⟨b, hb, -⟩ := hmoved.stop
  simp only [decide_eq_true_iff]
  rw [hentered.protects hn, o.made.covers_from_spot hne hlabels ha hb hi hlo hhi]

end Kept

section Sent

omit hne
include hp

/-- Where no entry around an invocation protects, the search goes on among those of the method. -/
theorem Parted.handsOn {i pc : Nat} (hkeeps : o.KeepsAt kept i pc)
    (hcalls : ∀ y ∈ calls, ¬ y.Protects pc) : o.HandsOn own i pc := by
  intro catches
  have hfirst : calls.find? (fun y => decide (y.Protects pc) && catches y.catchType) = none := by
    refine List.find?_eq_none.2 fun y hy => ?_
    rw [decide_eq_false (hcalls y hy), Bool.false_and]
    exact Bool.false_ne_true
  have hfound := forall₂_find? (p := fun t => catches t.catchType) (q := fun x => catches x.catchType)
    (fun t x h => congrArg catches h.catchType.symm) hkeeps
  simp only [List.find?_filter, Bool.decide_and, Bool.decide_eq_true] at hfound
  refine ⟨_, hfound, ?_⟩
  rw [CodeAttribute.catcher, hp.exceptions, List.find?_append, List.find?_append, hfirst,
    Option.none_or]

theorem Parted.caught {x : ExceptionEntry} (hx : x ∈ calls) {pc : Nat} {catches : UInt16 → Bool}
    (hprotects : x.Protects pc) (hcatches : catches x.catchType = true) :
    ∃ y ∈ calls, y.Protects pc ∧ c.catcher catches pc = some y := by
  cases hfind : calls.find? fun y => decide (y.Protects pc) && catches y.catchType with
  | none =>
    have hnot := List.find?_eq_none.1 hfind x hx
    rw [decide_eq_true hprotects, hcatches] at hnot
    exact absurd rfl hnot
  | some y =>
    have hy := List.find?_some hfind
    rw [Bool.and_eq_true, decide_eq_true_iff] at hy
    refine ⟨y, List.mem_of_find?_eq_some hfind, hy.1, ?_⟩
    rw [CodeAttribute.catcher, hp.exceptions, List.append_assoc, List.find?_append, hfind,
      Option.some_or]

end Sent

section Calls

include hp hlabels

/-- The entries around invocations, with what they were written for. -/
theorem Parted.range_of_call {x : ExceptionEntry} (hx : x ∈ calls) :
    ∃ (i : Nat) (g : Segment) (l : Nat) (op : Opcode) (index : UInt16) (t : TryCatch),
      o.parts.pieces[i]? = some g ∧ given.insns[i]? = some (.method op index) ∧ given.nextLabel ≤ l ∧
      Segment.Guarded s g l ∧ Range.Settles q ⟨l, l + 1, l + 2⟩ t ∧ t ∈ o.woven.tryCatch ∧
      stays t = true ∧ o.Entered t x ∧
      ∀ n insn pc, o.Writes n insn pc → (x.Protects pc ↔ n = o.parts.spot i) := by
  obtain ⟨t, ht, hentered⟩ := (mem_forall₂ hp.calls).2 x hx
  obtain ⟨ht, hstays⟩ := List.mem_filter.1 ht
  obtain ⟨r, hr, hsettles⟩ := (mem_forall₂ hp.ranges).2 t ht
  obtain ⟨i, g, l, op, index, hg, hinsn, hl, hguarded, rfl⟩ := o.made.range_of_mem hr
  have hmem : t ∈ o.woven.tryCatch := by
    rw [hp.tryCatch]
    exact List.mem_append_left _ (List.mem_append_left _ ht)
  refine ⟨i, g, l, op, index, t, hg, hinsn, hl, hguarded, hsettles, hmem, hstays, hentered, ?_⟩
  intro n insn pc hn
  rw [hentered.protects hn, o.made.range_covers_iff hne hlabels hg hl hguarded hsettles hn.getElem? hn.1]

/-- Nothing between two copies is protected by an entry around an invocation. -/
theorem Parted.not_protects {i n pc : Nat} {insn : Insn} (hi : i < given.insns.length)
    (hn : o.Writes n insn pc) (hlo : o.parts.spot i < n) (hhi : n < o.parts.edge (i + 1))
    {y : ExceptionEntry} (hy : y ∈ calls) : ¬ y.Protects pc := by
  obtain ⟨j, g, -, -, -, -, hg, -, -, -, -, -, -, -, hprotects⟩ := hp.range_of_call hne hlabels hy
  rw [hprotects n insn pc hn]
  rintro rfl
  have hj := (List.getElem?_eq_some_iff.1 hg).1
  have hij := (Parts.spot_lt_iff (o.made.pieces_length ▸ hi) hj).1 hlo
  have hedge := Nat.le_trans (Parts.edge_mono (w := o.parts) hij) (o.parts.edge_le_spot j)
  exact absurd hhi (Nat.not_lt_of_le hedge)

include hc hbelow

theorem Parted.guardsCall {x : ExceptionEntry} (hx : x ∈ calls) :
    ∃ i, o.GuardsCall calls kept own i x := by
  obtain ⟨i, g, l, op, index, t, hg, hinsn, hl, hguarded, hsettles, hmem, hstays, hentered, hprotects⟩ :=
    hp.range_of_call hne hlabels hx
  have hi := (List.getElem?_eq_some_iff.1 hinsn).1
  have hinvocation : ∃ op index pc, o.Copies i (.method op index) pc := by
    obtain ⟨n, insn, pc, hn, hcovers⟩ := hc.covers hmem hstays
    obtain rfl := (hprotects n insn pc hn).1 ((hentered.protects hn).2 hcovers)
    have hcopy := (o.made.insn_at_spot hne hinsn).symm.trans hn.getElem?
    cases hcopy
    exact ⟨op, index, pc, hinsn, hn⟩
  obtain ⟨n, hn, hat⟩ := hentered.handler
  have hplace := (o.made.range_places hne hlabels hg hl hguarded).2.2.2
  rw [hsettles.handler] at hn
  obtain rfl := hn.unique hplace
  obtain ⟨l', hcode, hend⟩ := o.made.handler_in_piece hne hlabels hg hguarded
  refine ⟨i, hinvocation, hprotects, hentered.catchType ▸ hsettles.catchType, _, l', hat, hcode,
    fun k insn pc hlo hhi hk => ?_⟩
  have hlo : o.parts.spot i < k := by omega
  have hhi : k < o.parts.edge (i + 1) := Nat.lt_of_le_of_lt hhi hend
  have hcalls : ∀ y ∈ calls, ¬ y.Protects pc := fun y => hp.not_protects hne hlabels hi hk hlo hhi
  have hkeeps := hp.keepsAt hc hne hlabels hbelow hi hk (Nat.le_of_lt hlo) hhi
  exact ⟨hcalls, hkeeps, hp.handsOn hkeeps hcalls⟩

omit hbelow in
/-- An invocation with a handler of its own is protected if it is written. -/
theorem Parted.guarded {i pc : Nat} {insn : Insn} {g : Segment} (hcopy : o.Copies i insn pc)
    (hg : o.parts.pieces[i]? = some g) (hranges : g.ranges ≠ []) : ∃ x ∈ calls, x.Protects pc := by
  obtain ⟨-, l, hl, hguarded⟩ := o.made.piece_guarded hg hranges
  have hr : ⟨l, l + 1, l + 2⟩ ∈ o.parts.segments.flatMap Segment.ranges := by
    rw [← ranges_pieces]
    refine List.mem_flatMap.2 ⟨g, List.mem_of_getElem? hg, ?_⟩
    rw [hguarded.ranges]
    exact List.mem_singleton_self _
  obtain ⟨t, ht, hsettles⟩ := (mem_forall₂ hp.ranges).1 _ hr
  have hmem : t ∈ o.woven.tryCatch := by
    rw [hp.tryCatch]
    exact List.mem_append_left _ (List.mem_append_left _ ht)
  have hcovers := (o.made.range_covers_iff hne hlabels hg hl hguarded hsettles hcopy.2.getElem?
    hcopy.2.1).2 rfl
  have hstays := hc.keeps hmem hcopy.2 hcovers
  obtain ⟨x, hx, hentered⟩ := (mem_forall₂ hp.calls).1 t (List.mem_filter.2 ⟨ht, hstays⟩)
  exact ⟨x, hx, (hentered.protects hcopy.2).2 hcovers⟩

end Calls

section Whole

variable {context : MethodContext} {r : Pool} {h : Hierarchy} {m : Analysis.Method}
include hc hp hlabels

omit hne in
theorem Parted.guardsMethod (hof : m.Of o.woven context r h) (henters : Enters given entry) :
    if s.wants .throws then ∃ x, own = [x] ∧ o.GuardsMethod x else own = [] := by
  have hrange := hp.range
  have hown := hp.own
  by_cases hwants : s.wants .throws = true
  · rw [if_pos hwants] at hrange ⊢
    obtain ⟨t, ts, hsettles, hnil, rfl⟩ := List.forall₂_cons_left_iff.1 hrange
    cases hnil
    have hcovers {n : Nat} := o.made.own_covers_iff (n := n) hlabels hsettles
    have hmem : t ∈ o.woven.tryCatch := by
      rw [hp.tryCatch]
      exact List.mem_append_right _ (List.mem_singleton_self _)
    -- control comes to the range, which holds something that takes bytes
    obtain ⟨g, -, hstart, hstop, -, -, hreal, -⟩ := (mem_forall₂ hof.guards).1 t hmem
    obtain ⟨hentrance, hexit⟩ := o.made.own_places hlabels
    rw [hsettles.start] at hstart
    rw [hsettles.stop] at hstop
    obtain ⟨k, insn, hlo, hhi, hk, hreal⟩ := anyReal_eq_true.1 hreal
    rw [hstart.unique hentrance] at hlo
    rw [hstop.unique hexit] at hhi
    have hreached := o.made.reached_entrance hlabels henters
    obtain ⟨n, insn, hlo, hhi', hn, hreal, hreached⟩ :=
      (Body.conveys_reached _).exists_real hreached hlo (List.getElem?_toArray.symm.trans hk) hreal
    obtain ⟨pc, hpc⟩ := hc.reached hreached hn hreal
    have hstays := hc.keeps hmem hpc (hcovers.2 ⟨hlo, Nat.lt_of_le_of_lt hhi' hhi⟩)
    rw [List.filter_cons_of_pos hstays] at hown
    obtain ⟨x, xs, hentered, hnil, rfl⟩ := List.forall₂_cons_left_iff.1 hown
    cases hnil
    obtain ⟨n', hn', hat⟩ := hentered.handler
    rw [hsettles.handler] at hn'
    refine ⟨x, rfl, ⟨fun n insn pc hn => ?_, hentered.catchType ▸ hsettles.catchType, ?_⟩⟩
    · rw [hentered.protects hn, hcovers]
    · rwa [← hn'.unique (o.made.handler_place hlabels hwants)]
  · rw [if_neg hwants] at hrange ⊢
    cases hrange
    cases hown
    rfl

end Whole

end Table

end Output

/-! ## Whole methods -/

section Methods

variable {plan : WeavePlan} {context : MethodContext} {h : Hierarchy} {major : UInt16}
  {code c : CodeAttribute} {given : Body} {p q : Pool}

/-- A woven method is its code put together, without what control does not reach. -/
theorem method_output (hp : p.Sound) (hc : (method plan context h major code).run.run p = (.ok c, q)) :
    ∃ given entry, decode code = .ok given ∧ entryPoint given context p h = .ok entry ∧
      ∃ (o : Output ⟨plan, context⟩ q given entry c) (m : Analysis.Method) (a : Analysis) (r : Pool),
        m.Of o.woven context r h ∧ Pruned m o.woven o.live o.old ∧
        Assemble.live o.woven context r h = .ok (o.live, a) ∧ encode o.live r = .ok o.encoded ∧
        (∀ k insn, o.live.insns[k]? = some insn → insn.isPseudo = false → Analysis.Reached m (o.old k)) ∧
        (LabelsBelow given → o.parts.segments ≠ []) := by
  obtain ⟨given, entry, woven, w, b, a, e, r, hgiven, hentry, -, hrq, hw, hlive, he, hcode, htable⟩ :=
    method_parts hp hc
  obtain ⟨m, old, hof, hpruned, hreal⟩ := Analysis.pruned_live hlive
  obtain ⟨a0, ha0, -⟩ := bind_eq_ok.1 hlive
  obtain ⟨m0, -, hm0, -⟩ := Analysis.analyze_eq_ok ha0
  refine ⟨given, entry, hgiven, hentry,
    ⟨w, woven, hw.within hrq, b, old, hpruned.thinned, e, ⟨r, hrq, he⟩, hcode, htable⟩, m, a, r, hof, hpruned,
    hlive, he, hreal, fun hlabels => ?_⟩
  exact hw.segments_ne hlabels hm0 ha0 (enters_of_entryPoint hentry)

/-- In the table of a woven method come first the entries around invocations, each of which protects one
invocation of the method and nothing else, then the entries of the method, which protect of the method
what they protected before, and last the entry of the method as a whole, which protects all behind the
entry point and the report of the start but its own handler. What an instruction throws goes to the
handler it went to before, from an invocation by way of a handler that throws it again; it goes to the
handler of the method as a whole only if it went nowhere before. -/
theorem method_routes (hp : p.Sound) (hstraight : code.Straight) (hgiven : decode code = .ok given)
    (hc : (method plan context h major code).run.run p = (.ok c, q)) :
    ∃ entry, entryPoint given context p h = .ok entry ∧
      ∃ (o : Output ⟨plan, context⟩ q given entry c) (calls kept own : List ExceptionEntry),
        c.exceptions = calls ++ kept ++ own ∧ o.Routed calls kept own := by
  obtain ⟨given', entry, hgiven', hentry, o, m, a, r, hof, hpruned, hlive, he, -, hne⟩ := method_output hp hc
  rw [hgiven] at hgiven'
  cases hgiven'
  have hlabels := decode_labelsBelow hstraight hgiven
  have hbelow : ∀ t ∈ given.tryCatch, ∀ l ∈ [t.start, t.stop, t.handler], l < given.nextLabel :=
    fun t ht l hl => decode_tableBelow hstraight hgiven ht hl
  have henters := enters_of_entryPoint hentry
  replace hne := hne hlabels
  obtain ⟨stays, hcomplete⟩ := Output.complete (o := o) hof hpruned hlive he
  obtain ⟨around, whole, calls, kept, own, hparted⟩ := hcomplete.parted
  have hkeeps : ∀ i insn pc, o.Copies i insn pc → o.KeepsAt kept i pc := by
    intro i insn pc hcopy
    obtain ⟨g, hg⟩ := o.made.piece_of_lt hcopy.lt
    exact hparted.keepsAt hcomplete hne hlabels hbelow hcopy.lt hcopy.2 (Nat.le_refl _)
      (Parts.spot_lt_edge hg (Nat.lt_succ_self i))
  refine ⟨entry, hentry, o, calls, kept, own, hparted.exceptions, ?_⟩
  exact {
    copied := fun i insn hi hinsn hreal => by
      have hlt := (List.getElem?_eq_some_iff.1 hinsn).1
      obtain ⟨pc, hpc⟩ := hcomplete.reached (o.made.reached_spot hne hlabels hi hlt)
        (o.made.insn_at_spot hne hinsn) hreal
      exact ⟨pc, hinsn, hpc⟩
    moved := ⟨stays, (hparted.moved hne hbelow).imp fun _ _ h => h.1⟩
    keeps := hkeeps
    around := fun x hx => hparted.guardsCall hcomplete hne hlabels hbelow hx
    guarded := fun i insn pc g hcopy hg => hparted.guarded hcomplete hne hlabels hcopy hg
    whole := hparted.guardsMethod hcomplete hlabels hof henters
    thrown := fun i insn pc hcopy hcalls => hparted.handsOn (hkeeps i insn pc hcopy) hcalls
    caught := fun x hx pc catches => hparted.caught hx }

end Methods

/-! ### A quotient by zero -/

def exceptionReports : WeavePlan where
  space := "default"
  listener := 1
  loader := 1
  kinds := .ofList [.callThrows, .throws]
  className := "demo.Sample"

/-- The table of the woven quotient has the entry of the invocation, that of the method and that of the
method as a whole. -/
theorem method_routes_quotient : ∃ c q,
    (method exceptionReports ofTwoNumbers .flat 49 quotient).run.run absolutePool = (.ok c, q) ∧
    c.exceptions.length = 3 ∧ absolutePool.Sound ∧ quotient.Straight ∧
    decode quotient = .ok quotientBody ∧
    ∃ entry, entryPoint quotientBody ofTwoNumbers absolutePool .flat = .ok entry ∧
      ∃ (o : Output ⟨exceptionReports, ofTwoNumbers⟩ q quotientBody entry c)
        (calls kept own : List ExceptionEntry),
        c.exceptions = calls ++ kept ++ own ∧ o.Routed calls kept own := by
  have hwoven : ((method exceptionReports ofTwoNumbers .flat 49 quotient).run.run
      absolutePool).1.toOption.any (fun c => c.exceptions.length = 3) = true := by decide +kernel
  obtain ⟨c, hc, hlength⟩ := any_toOption.1 hwoven
  generalize hrun : (method exceptionReports ofTwoNumbers .flat 49 quotient).run.run absolutePool =
    result at hc
  obtain ⟨outcome, q⟩ := result
  obtain rfl : outcome = .ok c := hc
  have hstraight : quotient.Straight := by decide +kernel
  exact ⟨c, q, rfl, of_decide_eq_true hlength, absolutePool_sound, hstraight, decode_quotient,
    method_routes absolutePool_sound hstraight decode_quotient hrun⟩

end Weave

end Interpose

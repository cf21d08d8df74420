import Mathlib.Data.List.Perm.Subperm
import Interpose.Proofs.ClassFile.ReadFits
import Interpose.Proofs.ClassFile.Rereading
import Interpose.Proofs.Code.Assembled
import Interpose.Proofs.Code.Tables
import Interpose.Proofs.Inference.Flow
/-!
# Writing assembled code

The format has two bytes for an offset and two for the number of entries of a table. Assembled code is
at most 65535 bytes long, so none of its offsets loses a bit (`CodeAttribute.Exact`), and it has at most
one stack map frame for each of its bytes. How many lines, local variables and protected ranges there
are is not checked: code is read back as it was written exactly when their tables can be counted
(`assemble_writable`).
-/

namespace Interpose

/-! ## Written code -/

namespace Attribute

variable {p : Pool}

/-- An attribute in a code attribute is not longer than that. -/
theorem inner_length_le {c : CodeAttribute} {body : Bytes} (hbody : c.write p = .ok body)
    {a : Attribute} (ha : a ∈ c.attributes) {inner : Bytes} (hinner : a.writeBody p = .ok inner) :
    inner.length ≤ body.length := by
  obtain ⟨maxStack, maxLocals, code, exceptions, attributes⟩ := c
  rw [CodeAttribute.write] at hbody
  obtain ⟨all, hall, hbody⟩ := bind_eq_ok.1 hbody
  cases hbody
  rw [writeAll_eq_mapM] at hall
  obtain ⟨parts, hparts, rfl⟩ := map_eq_ok.1 hall
  obtain ⟨part, hpart, hwritten⟩ := (mem_forall₂ (mapM_eq_ok.1 hparts)).1 a ha
  rw [write] at hwritten
  obtain ⟨index, -, hwritten⟩ := bind_eq_ok.1 hwritten
  obtain ⟨inner', hinner', hwritten⟩ := bind_eq_ok.1 hwritten
  cases hwritten
  cases hinner.symm.trans hinner'
  have hle := (List.sublist_flatten_of_mem hpart).length_le
  rw [framedAttribute_length] at hle
  simp only [List.length_append]
  omega

/-- Code whose attributes are tables that can be counted fits the format. -/
theorem code_fits {c : CodeAttribute} {body : Bytes} (hbody : c.write p = .ok body)
    (hlength : body.length < 0x100000000) (hexceptions : Countable c.exceptions)
    (htables : c.attributes.length ≤ 4 ∧ ∀ a ∈ c.attributes, Assemble.IsTable a)
    (hentries : ∀ a ∈ c.attributes, a.entries < 0x10000) :
    (code c).Throughout (Fits p) := by
  refine ⟨⟨⟨hexceptions, by have := htables.1; change _ < _; omega⟩, fun body' hbody' => ?_⟩,
    fun c' hc a ha => ?_⟩
  · rw [writeBody] at hbody'
    cases hbody.symm.trans hbody'
    exact hlength
  · cases hc
    have htable := htables.2 a ha
    refine ⟨⟨htable.fits (hentries a ha), fun inner hinner => ?_⟩,
      fun c' hc => absurd hc (htable.notCode c')⟩
    exact Nat.lt_of_le_of_lt (inner_length_le hbody ha hinner) hlength

/-- An attribute that is no code can be written if the pool holds its name. -/
theorem write_of_not_code {a : Attribute} (ha : ∀ body, a ≠ .code body)
    (hname : ∃ i, p.getUtf8 i = .ok a.name) : ∃ out, a.write p = .ok out := by
  obtain ⟨i, hi⟩ := hname
  obtain ⟨index, hindex, -⟩ := attributeNameSlot_rewrites hi
  have hbody : ∃ body, a.writeBody p = .ok body := by
    cases a with
    | code body => exact absurd rfl (ha body)
    | _ => exact ⟨_, by rw [writeBody]⟩
  obtain ⟨body, hbody⟩ := hbody
  rw [write]
  exact ⟨_, bind_eq_ok.2 ⟨index, hindex, bind_eq_ok.2 ⟨body, hbody, rfl⟩⟩⟩

/-- Code whose attributes are tables can be written if the pool holds all names. -/
theorem write_code {c : CodeAttribute} (hcode : ∃ i, p.getUtf8 i = .ok "Code")
    (hnot : ∀ a ∈ c.attributes, ∀ body, a ≠ .code body) (hnames : Assemble.Named p c.attributes) :
    ∃ index body, c.write p = .ok body ∧ (code c).write p = .ok (framedAttribute index body) := by
  obtain ⟨i, hi⟩ := hcode
  obtain ⟨index, hindex, -⟩ := attributeNameSlot_rewrites hi
  obtain ⟨parts, hparts⟩ := mapM_ok fun a ha => write_of_not_code (hnot a ha) (hnames a ha)
  obtain ⟨maxStack, maxLocals, bytes, exceptions, attributes⟩ := c
  have hbody : ∃ body, (CodeAttribute.mk maxStack maxLocals bytes exceptions attributes).write p =
      .ok body := by
    rw [CodeAttribute.write, writeAll_eq_mapM, hparts]
    exact ⟨_, rfl⟩
  obtain ⟨body, hbody⟩ := hbody
  refine ⟨index, body, hbody, ?_⟩
  rw [write, writeBody]
  exact bind_eq_ok.2 ⟨index, hindex, bind_eq_ok.2 ⟨body, hbody, rfl⟩⟩

end Attribute

/-! ## Offsets -/

/-- Code says the offsets that it was made from: none is cut off when it is written in two bytes. -/
structure CodeAttribute.Exact (c : CodeAttribute) (q : Pool) (b : Body) (a : Analysis) (e : Encoded) :
    Prop where
  length : c.code.length ≤ maxCodeLength
  offset : ∀ (i o : Nat), e.offsets[i]? = some o → (UInt16.ofNat o).toNat = o
  ranges : List.Forall₂ (fun t x => e.labels[t.start]? = some x.startPc.toNat ∧
    e.labels[t.stop]? = some x.endPc.toNat ∧ e.labels[t.handler]? = some x.handlerPc.toNat)
    b.tryCatch c.exceptions
  lines : c.lineEntries.map (fun x => (x.startPc.toNat, x.line)) = e.lines
  locals : ∀ x ∈ c.localEntries, ∃ v ∈ b.locals,
    e.labels[v.start]? = some x.startPc.toNat ∧ e.labels[v.stop]? = some x.endPc
  localTypes : ∀ x ∈ c.localTypeEntries, ∃ v ∈ b.localTypes,
    e.labels[v.start]? = some x.startPc.toNat ∧ e.labels[v.stop]? = some x.endPc
  frames : ∀ x ∈ c.declaredFrames, x.1 < c.code.length ∧
    ∃ i f, e.offsets[i]? = some x.1 ∧ a.frame i = some f ∧ x.2.Denotes q e.offsets f.written

theorem Encode.mem_lines {l : Layout} {insns : List Insn} {x : Nat × UInt16} (h : x ∈ lines l insns) :
    x.1 ∈ l.offsets := by
  obtain ⟨⟨insn, pc⟩, hmem, hx⟩ := List.mem_filterMap.1 h
  cases insn with
  | line n =>
    cases hx
    exact (List.of_mem_zip hmem).2
  | _ => cases hx

/-- Numbers in ascending order below a bound are no more than the bound. -/
theorem length_le_of_ascending {xs : List Nat} {n : Nat} (hs : xs.Pairwise (· < ·))
    (hn : ∀ x ∈ xs, x < n) : xs.length ≤ n := by
  have hsub := List.Nodup.subperm (hs.imp Nat.ne_of_lt) fun x hx => List.mem_range.2 (hn x hx)
  simpa using hsub.length_le

theorem length_framesWithOffsets (base : Nat) (frames : List StackMapFrame) :
    (framesWithOffsets.go base frames).length = frames.length := by
  induction frames generalizing base with
  | nil => rfl
  | cons f frames ih => rw [framesWithOffsets.go, List.length_cons, List.length_cons, ih]

section Assembles

variable {body : Body} {context : MethodContext} {h : Hierarchy} {major : UInt16} {pool q : Pool}
  {c : CodeAttribute} {b : Body} {a : Analysis} {e : Encoded} {frames : List StackMapFrame}
  (hc : Assembles body context h major pool q c b a e frames)
include hc

theorem Assembles.localEntries : c.localEntries = b.locals.filterMap (Assemble.localEntry e) := by
  rw [CodeAttribute.localEntries, hc.attributes,
    Assemble.flatMap_tablesOf _ rfl rfl rfl rfl b e frames]
  simp only [List.nil_append, List.append_nil]

theorem Assembles.localTypeEntries :
    c.localTypeEntries = b.localTypes.filterMap (Assemble.localEntry e) := by
  rw [CodeAttribute.localTypeEntries, hc.attributes,
    Assemble.flatMap_tablesOf _ rfl rfl rfl rfl b e frames]
  simp only [List.nil_append, List.append_nil]

/-- Control only reaches instructions in front of the end of the code. -/
theorem Assembles.offset_lt {i o : Nat} {f : Frame} (hf : a.frame i = some f)
    (ho : e.offsets[i]? = some o) : o < c.code.length := by
  obtain ⟨l, parts, -, hsettled, -, -, hof, -, -⟩ := encode_of hc.encoded
  obtain ⟨ha, -⟩ := Analysis.live_reached hc.live
  obtain ⟨m, -, hm, -⟩ := Analysis.analyze_eq_ok ha
  have hin : ∀ j, b.Reached j → j < b.insns.length := fun j hj =>
    Analysis.reached_lt hm ha ((reached_iff hm).2 hj)
  have hi := (Analysis.analyze_frame_iff ha).1 ⟨f, hf⟩
  obtain ⟨k, insn, hik, hk, hreal⟩ := hi.real_behind hin
  have hlt := (List.getElem?_eq_some_iff.1 hk).1
  rw [(Assemble.offsetAt_of_offsets hof ho).2, hc.code, hof.length, ← hsettled.offsetAt_length]
  exact Nat.lt_of_le_of_lt (hsettled.offsetAt_mono hik (Nat.le_of_lt hlt))
    (hsettled.offsetAt_lt hk hreal hlt (Nat.le_refl _))

theorem Assembles.framed_at {x : Nat × StackMapFrame} (hx : x ∈ c.declaredFrames) :
    x.1 < c.code.length ∧
      ∃ i f, e.offsets[i]? = some x.1 ∧ a.frame i = some f ∧ x.2.Denotes q e.offsets f.written := by
  rw [hc.declaredFrames] at hx
  by_cases hmajor : stackMapVersion ≤ major
  · obtain ⟨i, f, ho, hf, hdenotes⟩ := (hc.stands hmajor).of_mem hx
    exact ⟨hc.offset_lt hf ho, i, f, ho, hf, hdenotes⟩
  · cases hc.framed with
    | mapped hnew => exact absurd hnew hmajor
    | none _ => cases hx

theorem Assembles.exact : c.Exact q b a e := by
  obtain ⟨l, parts, -, hsettled, hlayout, hshort, hof, -, -⟩ := encode_of hc.encoded
  have hfits := encode_fits hc.encoded
  have short {o : Nat} (ho : o ≤ maxCodeLength) : (UInt16.ofNat o).toNat = o := by
    unfold maxCodeLength at ho
    rw [UInt16.toNat_ofNat', Nat.mod_eq_of_lt (by omega)]
  have ofLocals (vs : List LocalVar) : ∀ x ∈ vs.filterMap (Assemble.localEntry e), ∃ v ∈ vs,
      e.labels[v.start]? = some x.startPc.toNat ∧ e.labels[v.stop]? = some x.endPc := by
    intro x hx
    obtain ⟨v, hv, hvx⟩ := List.mem_filterMap.1 hx
    exact ⟨v, hv, Assemble.labels_of_localEntry hfits hvx⟩
  refine ⟨?_, fun i o ho => short (hfits.bound i o ho), ?_, ?_, ?_, ?_, fun x hx => hc.framed_at hx⟩
  · rw [hc.code, hof.length]
    exact hshort
  · rw [hc.exceptions]
    refine hof.exceptions.imp fun t x hx => ?_
    obtain ⟨i, j, k, hi, hj, hk, hstart, hstop, hhandler, -⟩ := hsettled.range_of_entry hshort hx
    have place {label : Label} {n : Nat} (hn : LastPlace b.insns label n) :
        e.labels[label]? = some (l.offsetAt n) := by
      rw [hof.labels]
      exact (hlayout.labels _ _).2 ⟨n, hn, hsettled.offset_eq hn.lt⟩
    rw [hstart, hstop, hhandler]
    exact ⟨place hi, place hj, place hk⟩
  · rw [hc.lineEntries, List.map_map]
    conv_rhs => rw [← List.map_id e.lines]
    refine List.map_congr_left fun x hx => ?_
    rw [hof.lines] at hx
    obtain ⟨i, hi⟩ := List.mem_iff_getElem?.1 (Encode.mem_lines hx)
    rw [Function.comp_apply, short (Nat.le_trans (hlayout.bound i _ hi) hshort)]
    rfl
  · rw [hc.localEntries]
    exact ofLocals b.locals
  · rw [hc.localTypeEntries]
    exact ofLocals b.localTypes

/-- There is at most one frame for each byte of the code. -/
theorem Assembles.frames_length_le : c.declaredFrames.length ≤ c.code.length := by
  by_cases hmajor : stackMapVersion ≤ major
  · have hsorted := (hc.stands hmajor).sorted
    rw [← hc.declaredFrames] at hsorted
    rw [← List.length_map]
    refine length_le_of_ascending (List.pairwise_map.2 hsorted) fun o ho => ?_
    obtain ⟨x, hx, rfl⟩ := List.mem_map.1 ho
    exact (hc.framed_at hx).1
  · cases hc.framed with
    | mapped hnew => exact absurd hnew hmajor
    | none _ =>
      rw [hc.declaredFrames]
      exact Nat.zero_le _

end Assembles

/-! ## Counts -/

theorem Attribute.entries_lt_of_listsFit {a : Attribute} (h : a.ListsFit) : a.entries < 0x10000 := by
  cases a with
  | code _ | stackMapTable _ | runtimeVisibleAnnotations _ | runtimeInvisibleAnnotations _ => exact h.1
  | exceptions _ | lineNumberTable _ | localVariableTable _ | localVariableTypeTable _ => exact h
  | sourceFile _ | unknown _ _ => exact Nat.zero_lt_succ _

theorem Assemble.countable_tableOf {α : Type} {make : List α → Attribute}
    (hmake : ∀ entries, (make entries).entries = entries.length) (entries : List α) :
    (∀ x ∈ tableOf make entries, x.entries < 0x10000) ↔ Countable entries := by
  cases entries with
  | nil => exact ⟨fun _ => Nat.zero_lt_succ _, nofun⟩
  | cons x xs =>
    change (∀ y ∈ [make (x :: xs)], y.entries < 0x10000) ↔ _
    rw [List.forall_mem_singleton, hmake]

/-- The tables of assembled code can be counted when the lists that nobody bounds can be. -/
theorem Assembles.countable_iff {body : Body} {context : MethodContext} {h : Hierarchy}
    {major : UInt16} {pool q : Pool} {c : CodeAttribute} {b : Body} {a : Analysis} {e : Encoded}
    {frames : List StackMapFrame} (hc : Assembles body context h major pool q c b a e frames) :
    (∀ x ∈ c.attributes, x.entries < 0x10000) ↔
      Countable c.lineEntries ∧ Countable c.localEntries ∧ Countable c.localTypeEntries := by
  have hframes : Countable frames := by
    have hle := hc.frames_length_le
    have hshort := hc.exact.length
    rw [hc.declaredFrames, framesWithOffsets, length_framesWithOffsets] at hle
    unfold maxCodeLength at hshort
    change _ < _
    omega
  rw [hc.lineEntries, hc.localEntries, hc.localTypeEntries, hc.attributes]
  simp only [Assemble.tablesOf, List.forall_mem_append]
  rw [Assemble.countable_tableOf fun _ => rfl, Assemble.countable_tableOf fun _ => rfl,
    Assemble.countable_tableOf fun _ => rfl, Assemble.countable_tableOf fun _ => rfl]
  exact ⟨fun h => ⟨h.1.1.1, h.1.1.2, h.1.2⟩, fun h => ⟨⟨⟨h.1, h.2.1⟩, h.2.2⟩, hframes⟩⟩

/-- What assembled code says of offsets is exact, and its frames can be counted. It can be written into
any larger pool that names it, and then it is read as it was written if and only if its protected
ranges, lines and local variables can be counted as well and its length can be told. -/
theorem assemble_writable {body : Body} {context : MethodContext} {h : Hierarchy} {major : UInt16}
    {pool q : Pool} (hp : pool.Sound) {c : CodeAttribute}
    (hc : (assemble body context h major).run.run pool = (.ok c, q)) :
    (∃ b a e, Assemble.live body context pool h = .ok (b, a) ∧ encode b pool = .ok e ∧
      c.code = e.code ∧ c.Exact q b a e) ∧
    c.declaredFrames.length ≤ maxCodeLength ∧
    ∀ p, q.Grows p → (∃ i, p.getUtf8 i = .ok "Code") → ∃ out, (Attribute.code c).write p = .ok out ∧
      ∀ depth, out.length ≤ depth → (Reader.Reads (Reader.oneAttribute p depth) (.code c) out ↔
        Countable c.exceptions ∧ Countable c.lineEntries ∧ Countable c.localEntries ∧
          Countable c.localTypeEntries ∧ out.length < 0x100000006) := by
  have htables := assemble_tables hp hc
  obtain ⟨b, a, e, frames, hc⟩ := assembles_of_assemble hp hc
  refine ⟨⟨b, a, e, hc.live, hc.encoded, hc.code, hc.exact⟩,
    Nat.le_trans hc.frames_length_le hc.exact.length, fun p hgrows hcode => ?_⟩
  have hnames : Assemble.Named p c.attributes := fun x hx => by
    obtain ⟨i, hi⟩ := hc.named x hx
    exact ⟨i, hgrows.within.getUtf8 hi⟩
  obtain ⟨index, bytes, hbytes, hout⟩ :=
    Attribute.write_code hcode (fun x hx => (htables.2 x hx).notCode) hnames
  refine ⟨_, hout, fun depth hdepth => ?_⟩
  have hlength := framedAttribute_length index bytes
  have hbody : (Attribute.code c).writeBody p = .ok bytes := by rwa [Attribute.writeBody]
  constructor
  · intro hreads
    have hread := hreads []
    obtain ⟨⟨⟨hexceptions, -⟩, body', hbody', hlt⟩, hinside⟩ :=
      Reader.oneAttribute_settled p depth hread
    cases hbody.symm.trans hbody'
    obtain ⟨hlines, hlocals, htypes⟩ := hc.countable_iff.1 fun x hx => by
      obtain ⟨hsettled, -⟩ := hinside c rfl x hx
      exact Attribute.entries_lt_of_listsFit hsettled.lists
    exact ⟨hexceptions, hlines, hlocals, htypes, by omega⟩
  · rintro ⟨hexceptions, hlines, hlocals, htypes, hlt⟩
    have hentries := hc.countable_iff.2 ⟨hlines, hlocals, htypes⟩
    have hfits := Attribute.code_fits hbytes (by omega) hexceptions htables hentries
    exact Reader.oneAttribute_reads hgrows.sound rfl depth hfits hout hdepth

/-! ### More variables than can be counted -/

/-- Named variables play no part in what is left of a body. -/
theorem Assemble.live_locals {body b : Body} {context : MethodContext} {pool : Pool} {h : Hierarchy}
    {a : Analysis} (hlive : live body context pool h = .ok (b, a)) (locals : List LocalVar) :
    live { body with locals } context pool h = .ok ({ b with locals }, a) := by
  unfold live at hlive ⊢
  obtain ⟨a0, ha0, hlive⟩ := bind_eq_ok.1 hlive
  refine bind_eq_ok.2 ⟨a0, ha0, ?_⟩
  by_cases hdead : (a0.deadCode body).isEmpty = true
  · rw [if_pos hdead] at hlive
    cases hlive
    exact if_pos hdead
  · rw [if_neg hdead] at hlive
    obtain ⟨a1, ha1, hlive⟩ := bind_eq_ok.1 hlive
    cases hlive
    exact (if_neg hdead).trans (bind_eq_ok.2 ⟨a, ha1, rfl⟩)

/-- The table of the variables of code that has no other. -/
theorem Assemble.tables_of_locals {b : Body} {a : Analysis} {e : Encoded} {major : UInt16} {p q : Pool}
    {x : LocalEntry} {xs : List LocalEntry} {i : UInt16} (hmajor : ¬ stackMapVersion ≤ major)
    (hlines : e.lines = []) (htypes : b.localTypes = [])
    (hlocals : b.locals.filterMap (localEntry e) = x :: xs)
    (hadd : (Pool.addUtf8 "LocalVariableTable").run.run p = (.ok i, q)) :
    (tables b a e major).run.run p = (.ok [.localVariableTable (x :: xs)], q) := by
  unfold tables
  simp only [hlines, hlocals, htypes, hmajor, List.map_nil, List.filterMap_nil, if_false]
  refine run_bind_eq_ok.2 ⟨[], p, rfl, ?_⟩
  refine run_bind_eq_ok.2 ⟨[.localVariableTable (x :: xs)], q, ?_, ?_⟩
  · exact run_bind_eq_ok.2 ⟨i, q, adapt_eq_ok.2 hadd, rfl⟩
  · exact run_bind_eq_ok.2 ⟨[], q, rfl, rfl⟩

/-- A method that returns at once, with a number of variables that live all the while. -/
def returning (count : Nat) : Body :=
  { Body.ofInsns [.label 0, .simple Op.returnVoid, .label 1] with
    locals := List.replicate count ⟨0, 1, 1, 1, 0⟩ }

def namingCode : Pool :=
  ((Pool.addUtf8 "Code").run.run .empty).2

theorem namingCode_sound : namingCode.Sound ∧ ∃ i, namingCode.getUtf8 i = .ok "Code" := by
  have hadd : ((Pool.addUtf8 "Code").run.run .empty).1.toOption.any (fun _ => true) := by decide +kernel
  obtain ⟨i, hadd, -⟩ := any_toOption.1 hadd
  obtain ⟨hgrows, hi⟩ := (Pool.addUtf8_ends Pool.empty_sound "Code").of_ok (Prod.ext hadd rfl)
  exact ⟨hgrows.sound, i, hi⟩

/-- Nothing bounds the variables of a method. -/
theorem assemble_returning (n : Nat) :
    ∃ c q, (assemble (returning (n + 1)) ⟨"A", Access.staticFlag, "f", ⟨[], .void⟩⟩ .flat 49).run.run
        namingCode = (.ok c, q) ∧ c.localEntries.length = n + 1 := by
  have hok : (Assemble.live (returning 0) ⟨"A", Access.staticFlag, "f", ⟨[], .void⟩⟩ namingCode
      .flat).toOption.any (fun r => decide (r.1.localTypes = []) &&
        (encode r.1 namingCode).toOption.any fun e => decide (e.lines = []) &&
          decide (Assemble.localEntry e ⟨0, 1, 1, 1, 0⟩ = some ⟨0, 1, 1, 1, 0⟩)) = true := by
    decide +kernel
  have hadd : ((Pool.addUtf8 "LocalVariableTable").run.run namingCode).1.toOption.any
      (fun _ => true) := by decide +kernel
  simp only [any_toOption, Bool.and_eq_true, decide_eq_true_eq, and_true] at hok hadd
  obtain ⟨⟨b, a⟩, hlive, htypes, e, he, hlines, hentry⟩ := hok
  obtain ⟨i, hadd⟩ := hadd
  have hlive : Assemble.live (returning (n + 1)) ⟨"A", Access.staticFlag, "f", ⟨[], .void⟩⟩ namingCode
      .flat = .ok ({ b with locals := List.replicate (n + 1) ⟨0, 1, 1, 1, 0⟩ }, a) :=
    Assemble.live_locals hlive _
  have htables : (Assemble.tables { b with locals := List.replicate (n + 1) ⟨0, 1, 1, 1, 0⟩ } a e
      49).run.run namingCode = (.ok [.localVariableTable (List.replicate (n + 1) ⟨0, 1, 1, 1, 0⟩)], _) :=
    Assemble.tables_of_locals (by decide) hlines htypes (List.filterMap_replicate_of_some hentry)
      (Prod.ext hadd rfl)
  refine ⟨⟨a.maxStack, a.maxLocals, e.code, e.exceptions,
    [.localVariableTable (List.replicate (n + 1) ⟨0, 1, 1, 1, 0⟩)]⟩,
    ((Pool.addUtf8 "LocalVariableTable").run.run namingCode).2, ?_, ?_⟩
  · unfold assemble
    refine run_bind_eq_ok.2 ⟨namingCode, namingCode, rfl, ?_⟩
    rw [hlive]
    refine run_bind_eq_ok.2 ⟨_, namingCode, rfl, ?_⟩
    refine run_bind_eq_ok.2 ⟨e, namingCode, ?_, run_bind_eq_ok.2 ⟨_, _, htables, rfl⟩⟩
    exact congrArg (fun r => (Assembly.ofExcept r).run.run namingCode) he
  · rw [CodeAttribute.localEntries, List.flatMap_singleton]
    exact List.length_replicate

/-- With one variable more than can be counted, code is not read as it was written. -/
theorem assemble_writable_returning :
    namingCode.Sound ∧ ∃ c q out,
      (assemble (returning 0x10000) ⟨"A", Access.staticFlag, "f", ⟨[], .void⟩⟩ .flat 49).run.run
        namingCode = (.ok c, q) ∧ (Attribute.code c).write q = .ok out ∧
      ¬ Reader.Reads (Reader.oneAttribute q out.length) (.code c) out := by
  obtain ⟨hsound, i, hi⟩ := namingCode_sound
  obtain ⟨c, q, hc, hlocals⟩ := assemble_returning 0xFFFF
  obtain ⟨-, -, hwritten⟩ := assemble_writable hsound hc
  obtain ⟨_, _, _, _, hassembles⟩ := assembles_of_assemble hsound hc
  have hgrows := hassembles.grows
  obtain ⟨out, hout, hreads⟩ := hwritten q (.refl hgrows.sound) ⟨i, hgrows.within.getUtf8 hi⟩
  refine ⟨hsound, c, q, out, hc, hout, fun h => ?_⟩
  obtain ⟨-, -, hcountable, -, -⟩ := (hreads out.length (Nat.le_refl _)).1 h
  rw [Countable, hlocals] at hcountable
  omega

end Interpose

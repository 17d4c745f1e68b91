import ClassWeave.Proofs.Code.Occurring
import ClassWeave.Proofs.Patch.Forming
import ClassWeave.Proofs.Patch.InForce

/-!
A guard that is put in remains. Its code occurs in the body, and still does so if other guards are put around that or
in front of it, and if the labels get other names. In a body as it is read, such code is found, and so the guard is
not put in a second time.
-/

namespace ClassWeave

namespace Node

variable {front nodes : List Node} {label : Label} {position : Nat}

/-- A label with nothing but labels in front of it. -/
theorem indexOf?_zero (hposition : nodes.findIdx? (· = .label label) = some position)
    (leading : ∀ p < position, ∃ other, nodes[p]? = some (.label other)) : indexOf? nodes label = some 0 := by
  obtain ⟨hlt, hlabel, hnone⟩ := List.findIdx?_eq_some_iff_getElem.1 hposition
  have hsplit : nodes = nodes.take position ++ .label label :: nodes.drop (position + 1) := by
    rw [← of_decide_eq_true hlabel, ← List.drop_eq_getElem_cons, List.take_append_drop]
  refine indexOf?_eq_some.2 ⟨_, _, hsplit, fun hm => ?_, ?_⟩
  · obtain ⟨p, hp, hnode⟩ := List.mem_take_iff_getElem.1 hm
    exact hnone p (by omega) (decide_eq_true hnode)
  · refine List.length_eq_zero_iff.2 (List.filter_eq_nil_iff.2 fun node hm => ?_)
    obtain ⟨p, hp, rfl⟩ := List.mem_take_iff_getElem.1 hm
    obtain ⟨other, hother⟩ := leading p (by omega)
    rw [List.getElem?_eq_getElem (by omega)] at hother
    simp [Option.some.inj hother, isLabel]

end Node

namespace MethodBody

/-- One body is a part of the other: its code is, and its rows are among the others. -/
structure Within (old body : MethodBody) (offset : Nat) : Prop where
  shape : body.shape = old.shape
  handlers : old.handlers ⊆ body.handlers
  nodes : Node.Within old.nodes body.nodes offset

end MethodBody

variable {old body other : MethodBody} {pool pool' : ConstantPool}

namespace WrapGuard

variable {guard : WrapGuard}

/-- The guard has a row, and at the handler of that there is its code. The range of the row ends there, and is not
empty or the other way round. -/
structure HasRow (guard : WrapGuard) (body : MethodBody) (tail : Fragment) (row : Handler) (start position : Nat) :
    Prop where
  listed : row ∈ body.handlers
  catchType : row.catchType = guard.catchType
  starts : Node.indexOf? body.nodes row.start = some start
  stops : Node.indexOf? body.nodes row.stop = some position
  handles : Node.indexOf? body.nodes row.handler = some position
  ordered : start ≤ position
  occurs : Node.OccursAt tail.nodes body.nodes position

/-- The guard has been put in, and its constants are there. -/
def Present (guard : WrapGuard) (body : MethodBody) (pool : ConstantPool) : Prop :=
  ∃ labels label tail used row start position,
    guard.tail labels body.shape pool = .ok (label, tail, used) pool ∧ guard.HasRow body tail row start position

/-- What is put in: nodes in front of the old ones that are labels, and the tail behind. -/
theorem parts_of_apply (h : guard.apply (some old) pool = .ok (.patched body) pool') :
    ∃ lead labels label tail used start, guard.tail labels old.shape pool = .ok (label, tail, used) pool' ∧
      guard.Handles labels old.shape pool pool' label tail ∧ body.shape = old.shape ∧
      body.nodes = lead ++ old.nodes ++ tail.nodes ∧ Node.instructions lead = [] ∧
      Node.indexOf? (lead ++ old.nodes) start = some 0 ∧
      body.handlers = old.handlers ++ [⟨start, label, label, guard.catchType⟩] := by
  obtain ⟨_, ⟨⟩, patches⟩ := patches_of_apply h
  obtain ⟨label, tail, used, htail, rfl⟩ := patches.put
  obtain ⟨start, lead, supply, hat, -, labelled, position, hposition, leading⟩ :=
    old.labelAt_firstInstruction patches.code
  have hlead : Node.instructions lead = [] := by
    refine List.filter_eq_nil_iff.2 fun node hm => ?_
    obtain ⟨label, rfl, -⟩ := labelled node hm
    simp [Node.isLabel]
  rw [hat] at htail
  refine ⟨lead, _, label, tail, used, start, htail, handles_of_tail patches.fits htail, ?_, ?_, hlead, ?_, ?_⟩
  · exact old.labelAt_shape _
  · unfold around
    rw [hat]
  · refine Node.indexOf?_zero hposition fun p hp => ?_
    rcases Nat.lt_or_ge p lead.length with hin | hout
    · obtain ⟨label, hlabel, -⟩ := labelled _ (List.getElem_mem hin)
      exact ⟨label, by rw [List.getElem?_append_left hin, List.getElem?_eq_getElem hin, hlabel]⟩
    · obtain ⟨label, hlabel⟩ := leading (p - lead.length) (by omega)
      exact ⟨label, by rw [List.getElem?_append_right hout, hlabel]⟩
  · unfold around
    rw [hat]

/-- The old body is a part of the new one. -/
theorem within_of_apply (unique : (body.nodes.filterMap Node.label?).Nodup)
    (h : guard.apply (some old) pool = .ok (.patched body) pool') : old.Within body 0 := by
  obtain ⟨lead, labels, label, tail, used, start, -, -, hshape, hnodes, hlead, -, hhandlers⟩ := parts_of_apply h
  refine ⟨hshape, hhandlers ▸ List.subset_append_left _ _, ?_⟩
  rw [hnodes] at unique ⊢
  have uniqueFront : ((lead ++ old.nodes).filterMap Node.label?).Nodup := by
    rw [List.filterMap_append] at unique
    exact (List.nodup_append.1 unique).1
  have front := Node.within_append_right uniqueFront
  rw [hlead] at front
  exact front.trans (Node.within_append_left _ _)

/-- A guard that has been put in is there, whatever further constants there are. -/
theorem present_of_apply (unique : (body.nodes.filterMap Node.label?).Nodup)
    (h : guard.apply (some old) pool = .ok (.patched body) pool') {more : ConstantPool} (hle : pool' ≤ more) :
    guard.Present body more := by
  obtain ⟨lead, labels, label, tail, used, start, htail, handles, hshape, hnodes, hlead, hstart, hhandlers⟩ :=
    parts_of_apply h
  have hagain := (guard.settled_tail labels old.shape _ _ _ htail).2 more hle
  obtain ⟨insns, htailNodes⟩ := handles.nodes
  have hfirst : Node.indexOf? tail.nodes label = some 0 := by
    rw [htailNodes]
    exact Node.indexOf?_eq_some.2 ⟨[], _, rfl, List.not_mem_nil, rfl⟩
  rw [hnodes] at unique
  have hlabel : Node.indexOf? body.nodes label = some (Node.instructions (lead ++ old.nodes)).length := by
    rw [hnodes]
    exact Node.indexOf?_append_right hfirst (Node.notMem_of_unique unique (Node.mem_of_indexOf? hfirst))
  refine ⟨labels, label, tail, used, ⟨start, label, label, guard.catchType⟩, 0,
    (Node.instructions (lead ++ old.nodes)).length, hshape ▸ hagain, ?_⟩
  constructor
  case listed => exact hhandlers ▸ List.mem_append_right _ (List.mem_singleton_self _)
  case catchType => rfl
  case starts =>
    rw [hnodes]
    exact Node.indexOf?_append_left hstart _
  case stops => exact hlabel
  case handles => exact hlabel
  case ordered => exact Nat.zero_le _
  case occurs =>
    rw [hnodes]
    exact (Node.occursAt_self handles.labelled.2).within (Node.within_append_right unique)

theorem Present.of_le (h : guard.Present body pool) (hle : pool ≤ pool') : guard.Present body pool' := by
  obtain ⟨labels, label, tail, used, row, start, position, htail, hrow⟩ := h
  exact ⟨labels, label, tail, used, row, start, position,
    (guard.settled_tail labels _ _ _ _ htail).2 pool' hle, hrow⟩

theorem Present.within (h : guard.Present old pool) {offset : Nat} (part : old.Within body offset) :
    guard.Present body pool := by
  obtain ⟨labels, label, tail, used, row, start, position, htail, hrow⟩ := h
  obtain ⟨-, -, -, -, hindex⟩ := part.nodes
  exact ⟨labels, label, tail, used, row, offset + start, offset + position, part.shape ▸ htail,
    part.handlers hrow.listed, hrow.catchType, hindex _ _ hrow.starts, hindex _ _ hrow.stops,
    hindex _ _ hrow.handles, Nat.add_le_add_left hrow.ordered _, hrow.occurs.within part.nodes⟩

/-- The names of labels do not matter. -/
theorem Present.sameCode (h : guard.Present body pool) (same : body.SameCode other) : guard.Present other pool := by
  obtain ⟨labels, label, tail, used, row, start, position, htail, hrow⟩ := h
  obtain ⟨found, hfound, related⟩ := exists_right_of_mem same.handlers hrow.listed
  obtain ⟨i, hi, hstart⟩ := related.start
  obtain ⟨j, hj, hstop⟩ := related.stop
  obtain ⟨k, hk, hhandler⟩ := related.handler
  cases hrow.starts.symm.trans hi
  cases hrow.stops.symm.trans hj
  cases hrow.handles.symm.trans hk
  exact ⟨labels, label, tail, used, found, start, position, same.shape ▸ htail, hfound,
    related.catchType.trans hrow.catchType, hstart, hstop, hhandler, hrow.ordered, hrow.occurs.of_alike same.nodes⟩

/-- In a body whose labels are apart, the guard is found. -/
theorem Present.alreadyWraps (h : guard.Present body pool) (unique : (body.nodes.filterMap Node.label?).Nodup)
    (apart : Node.Apart body.nodes) (fits : guard.fallback.fits body.shape.returnType = true)
    {labels used : LabelSupply} {label : Label} {tail : Fragment}
    (htail : guard.tail labels body.shape pool = .ok (label, tail, used) pool') :
    guard.alreadyWraps body tail = true := by
  obtain ⟨labels', label', tail', used', row, start, position, htail', hrow⟩ := h
  have hstop : row.stop = row.handler := apart.eq_of_indexOf? hrow.handles hrow.stops
  obtain ⟨before, after, hnodes, hnew, hbefore⟩ := Node.indexOf?_eq_some.1 hrow.handles
  have hhandler : body.labelPosition? row.handler = some before.length := by
    unfold MethodBody.labelPosition?
    rw [hnodes]
    exact Node.findIdx?_split hnew
  have hstart : ∃ first ≤ before.length, body.labelPosition? row.start = some first := by
    obtain ⟨front, behind, hsplit, hfresh, hfront⟩ := Node.indexOf?_eq_some.1 hrow.starts
    refine ⟨front.length, ?_, ?_⟩
    · by_contra hgt
      -- The handler's label would be in front of that of the start, with instructions between them.
      have hlt : before.length < front.length := Nat.lt_of_not_le hgt
      have hin : .label row.handler ∈ front := by
        have hlabel : body.nodes[before.length]? = some (.label row.handler) := by
          rw [hnodes, List.getElem?_append_right le_rfl, Nat.sub_self]
          rfl
        rw [hsplit, List.getElem?_append_left hlt] at hlabel
        exact List.mem_of_getElem? hlabel
      obtain ⟨i, hi⟩ := Node.indexOf?_of_mem hin
      have hfound := Node.indexOf?_append_left hi (.label row.start :: behind)
      rw [← hsplit, hrow.handles] at hfound
      cases hfound
      have hlast : ∀ other, front.getLast? ≠ some (.label other) := by
        rw [hsplit] at apart
        exact apart.getLast?_ne
      have hpos := Node.indexOf?_lt hlast hi
      have hle := hrow.ordered
      omega
    · unfold MethodBody.labelPosition?
      rw [hsplit]
      exact Node.findIdx?_split hfresh
  obtain ⟨first, hfirst, hposition⟩ := hstart
  refine alreadyWraps_iff.2 ⟨row, hrow.listed, hrow.catchType, hstop, first, before.length, hposition, hhandler,
    hfirst, ?_⟩
  have handles := handles_of_tail fits htail'
  rw [hnodes, List.drop_left, (form_eq htail' htail).2]
  rw [hnodes] at unique apart
  refine CanonicalNode.matchesAt_of_occursAt unique handles.labelled.1 apart.getLast?_ne ?_
  rw [← hnodes, hbefore]
  exact hrow.occurs

/-- A guard that is there is not put in. -/
theorem Present.ne_patched (h : guard.Present old pool) (unique : (old.nodes.filterMap Node.label?).Nodup)
    (apart : Node.Apart old.nodes) : guard.apply (some old) pool ≠ .ok (.patched body) pool' := by
  intro happly
  obtain ⟨_, ⟨⟩, patches⟩ := patches_of_apply happly
  obtain ⟨label, rehearsed, used, left, htail, hnew⟩ := patches.new
  rw [h.alreadyWraps unique apart patches.fits htail] at hnew
  cases hnew

end WrapGuard

namespace PrologueGuard

variable {guard : PrologueGuard}

/-- The guards have been put in, and their constants are there. -/
def Present (guard : PrologueGuard) (body : MethodBody) (pool : ConstantPool) : Prop :=
  ∃ old code labels start, old.shape = body.shape ∧ guard.code old pool = .ok (code, labels) pool ∧
    Node.OccursAt code.nodes body.nodes start

theorem within_of_apply (unique : (body.nodes.filterMap Node.label?).Nodup)
    (h : guard.apply (some old) pool = .ok (.patched body) pool') : ∃ offset, old.Within body offset := by
  obtain ⟨_, ⟨⟩, patches⟩ := patches_of_apply h
  obtain ⟨code, labels, -, rfl⟩ := patches.put
  exact ⟨_, rfl, List.subset_append_right _ _, Node.within_append_right unique⟩

theorem present_of_apply (h : guard.apply (some old) pool = .ok (.patched body) pool') {more : ConstantPool}
    (hle : pool' ≤ more) : guard.Present body more := by
  obtain ⟨_, ⟨⟩, patches⟩ := patches_of_apply h
  obtain ⟨code, labels, hcode, rfl⟩ := patches.put
  have hagain := (guard.settled_code old _ _ _ hcode).2 more hle
  obtain ⟨resume, opened, chained, builder, built, rfl, -⟩ := built_of_code hcode
  have occurs := (Node.occursAt_self built.labelled.2).within (Node.within_append_left _ old.nodes)
  exact ⟨old, _, labels, _, rfl, hagain, occurs⟩

theorem Present.of_le (h : guard.Present body pool) (hle : pool ≤ pool') : guard.Present body pool' := by
  obtain ⟨before, code, labels, start, hshape, hcode, occurs⟩ := h
  exact ⟨before, code, labels, start, hshape, (guard.settled_code before _ _ _ hcode).2 pool' hle, occurs⟩

theorem Present.within (h : guard.Present old pool) {offset : Nat} (part : old.Within body offset) :
    guard.Present body pool := by
  obtain ⟨before, code, labels, start, hshape, hcode, occurs⟩ := h
  exact ⟨before, code, labels, offset + start, hshape.trans part.shape.symm, hcode, occurs.within part.nodes⟩

theorem Present.sameCode (h : guard.Present body pool) (same : body.SameCode other) : guard.Present other pool := by
  obtain ⟨before, code, labels, start, hshape, hcode, occurs⟩ := h
  exact ⟨before, code, labels, start, hshape.trans same.shape.symm, hcode, occurs.of_alike same.nodes⟩

theorem Present.occursIn (h : guard.Present body pool) (unique : (body.nodes.filterMap Node.label?).Nodup)
    (some : guard.guards ≠ []) {code : Fragment} {labels : LabelSupply}
    (hcode : guard.code body pool = .ok (code, labels) pool') :
    CanonicalNode.occursIn (CanonicalNode.ofNodes code.nodes) body.nodes = true := by
  obtain ⟨before, code', labels', start, hshape, hcode', occurs⟩ := h
  obtain ⟨⟨branch, hbranch⟩, -⟩ := branches_of_code some hcode'
  have hbare : 0 < (Node.instructions code'.nodes).length := Node.instructions_ne_nil hbranch rfl
  obtain ⟨resume, opened, chained, builder, built, rfl, -⟩ := built_of_code hcode'
  have hcount : start + (Node.instructions builder.finish.nodes).length ≤ (Node.instructions body.nodes).length := by
    obtain ⟨front, run, back, hnodes, rfl, hrun⟩ := occurs
    rw [hnodes, List.length_append, List.length_append, hrun.length_eq]
    omega
  obtain ⟨front, rest, hnodes, hfront, hlast⟩ := @Node.exists_split body.nodes start (by omega)
  refine CanonicalNode.occursIn_iff.2 ⟨front, rest, hnodes, ?_, ?_⟩
  · rintro rfl
    rw [hnodes, List.append_nil, hfront] at hcount
    omega
  · rw [form_eq hshape.symm hcode' hcode]
    rw [hnodes] at unique occurs
    exact CanonicalNode.matchesAt_of_occursAt unique built.labelled.1 hlast (hfront.symm ▸ occurs)

/-- Guards that are there are not put in. -/
theorem Present.ne_patched (h : guard.Present old pool) (unique : (old.nodes.filterMap Node.label?).Nodup) :
    guard.apply (some old) pool ≠ .ok (.patched body) pool' := by
  intro happly
  obtain ⟨_, ⟨⟩, patches⟩ := patches_of_apply happly
  obtain ⟨rehearsed, labels, left, hcode, hnew⟩ := patches.new
  rw [h.occursIn unique patches.guards hcode] at hnew
  cases hnew

end PrologueGuard

namespace PatchStrategy

variable {strategy : PatchStrategy}

/-- The guard of the strategy has been put in, and its constants are there. New code never counts as that. -/
def Present : PatchStrategy → MethodBody → ConstantPool → Prop
  | .wrap guard, body, pool => guard.Present body pool
  | .prologue guard, body, pool => guard.Present body pool
  | .replace _, _, _ => False

theorem part_of_apply (keeps : strategy.keepsCode = true) (unique : (body.nodes.filterMap Node.label?).Nodup)
    (h : strategy.apply (some old) pool = .ok (.patched body) pool') : ∃ offset, old.Within body offset := by
  cases strategy with
  | wrap guard => exact ⟨0, WrapGuard.within_of_apply unique h⟩
  | prologue guard => exact PrologueGuard.within_of_apply unique h
  | replace replacement => cases keeps

theorem present_of_apply (keeps : strategy.keepsCode = true) (unique : (body.nodes.filterMap Node.label?).Nodup)
    (h : strategy.apply (some old) pool = .ok (.patched body) pool') {more : ConstantPool} (hle : pool' ≤ more) :
    strategy.Present body more := by
  cases strategy with
  | wrap guard => exact WrapGuard.present_of_apply unique h hle
  | prologue guard => exact PrologueGuard.present_of_apply h hle
  | replace replacement => cases keeps

theorem Present.of_le (h : strategy.Present body pool) (hle : pool ≤ pool') : strategy.Present body pool' := by
  cases strategy with
  | wrap guard => exact WrapGuard.Present.of_le h hle
  | prologue guard => exact PrologueGuard.Present.of_le h hle
  | replace replacement => exact h

theorem Present.within (h : strategy.Present old pool) {offset : Nat} (part : old.Within body offset) :
    strategy.Present body pool := by
  cases strategy with
  | wrap guard => exact WrapGuard.Present.within h part
  | prologue guard => exact PrologueGuard.Present.within h part
  | replace replacement => exact h

theorem Present.sameCode (h : strategy.Present body pool) (same : body.SameCode other) :
    strategy.Present other pool := by
  cases strategy with
  | wrap guard => exact WrapGuard.Present.sameCode h same
  | prologue guard => exact PrologueGuard.Present.sameCode h same
  | replace replacement => exact h

theorem Present.ne_patched (h : strategy.Present old pool) (unique : (old.nodes.filterMap Node.label?).Nodup)
    (apart : Node.Apart old.nodes) : strategy.apply (some old) pool ≠ .ok (.patched body) pool' := by
  cases strategy with
  | wrap guard => exact WrapGuard.Present.ne_patched h unique apart
  | prologue guard => exact PrologueGuard.Present.ne_patched h unique
  | replace replacement => exact h.elim

end PatchStrategy

end ClassWeave

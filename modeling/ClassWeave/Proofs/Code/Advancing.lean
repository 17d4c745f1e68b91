import ClassWeave.Proofs.Code.Restoring
import ClassWeave.Proofs.Code.Spending

/-!
Where the labels of a body that is read stand. The offsets of the instructions ascend up to the end of the
code, so a label that was made for one of them stands in front of that instruction.
-/

namespace ClassWeave

namespace MethodBody

variable {code : Code} {pool : ConstantPool} {shape : MethodShape} {body : MethodBody}
  {entries : List (Nat × Decoded)} {tables : CodeTables} {labels : OffsetLabels}

/-- The label stands in front of the instruction that was read at the offset, or behind the last one
if that is the length of the code. -/
def StandsAt (body : MethodBody) (code : Bytes) (label : Label) (offset : Nat) : Prop :=
  ∃ entries i, Decoded.readAll code = .ok entries ∧ Node.indexOf? body.nodes label = some i ∧
    (entries.map Prod.fst ++ [code.length])[i]? = some offset

theorem DecodedAs.standsAt (h : DecodedAs code pool shape body entries tables labels) {offset : Nat}
    {label : Label} (hl : labels.label offset = .ok label) : body.StandsAt code.code label offset := by
  have hat := OffsetLabels.label_eq_ok.1 hl
  obtain ⟨plain, hplain, hnodes⟩ := h.nodes_eq
  have hinside : offset ∈ entries.map Prod.fst ++ [code.code.length] :=
    (OffsetLabels.ofReferences_eq_ok.1 h.known).1 offset
      ((OffsetLabels.isSome_at? h.known).1 (by rw [hat]; rfl))
  obtain ⟨i, hi⟩ := List.mem_iff_getElem?.1 hinside
  have hnodup := (Decoded.pairwise_readAll h.read).imp Nat.ne_of_lt
  refine ⟨entries, i, h.read, ?_, hi⟩
  rw [hnodes]
  exact OffsetLabels.indexOf?_weave (hplain.imp fun _ _ => OffsetLabels.isLabel_of_node)
    (OffsetLabels.numbered h.known) hnodup hi hat

/-- The labels of a body that is read are placed once each. -/
theorem nodup_of_decode (h : decode code pool shape = .ok body) : (body.nodes.filterMap Node.label?).Nodup := by
  obtain ⟨entries, tables, labels, decoded⟩ := decodedAs_of_decode h
  obtain ⟨plain, hplain, hnodes⟩ := decoded.nodes_eq
  have hnodup := (Decoded.pairwise_readAll decoded.read).imp Nat.ne_of_lt
  have hlabels : body.nodes.filterMap Node.label? =
      (entries.map Prod.fst ++ [code.code.length]).filterMap labels.at? := by
    rw [hnodes]
    exact OffsetLabels.labels_weave (hplain.imp fun _ _ => OffsetLabels.isLabel_of_node)
  rw [hlabels]
  exact List.Nodup.filterMap (fun _ _ _ ha hb => (OffsetLabels.numbered decoded.known).injective _ _ _ ha hb) hnodup

end MethodBody

end ClassWeave

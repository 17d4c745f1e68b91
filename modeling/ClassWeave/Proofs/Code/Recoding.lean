import ClassWeave.Proofs.Code.Reading
import ClassWeave.Proofs.Code.Spending

/-!
One instruction, written and read. The bytes of an instruction are as many as it says and read as that instruction
among any others. Of the forms that read as the instruction they are a shortest one.
-/

namespace ClassWeave

variable {code : Bytes} {offset next : Nat} {insn other : Insn}

theorem Decoded.read_insn (insn : Insn) (front back : Bytes) :
    Decoded.read (front ++ insn.bytes ++ back) front.length = .ok (.insn insn, front.length + insn.width) := by
  have hahead : (front ++ insn.bytes ++ back).drop front.length = insn.bytes ++ back := by
    rw [List.append_assoc, List.drop_left]
  have htaken := (Site.mk front.length (front ++ insn.bytes ++ back).length).takes_insn insn front.length back
  unfold Decoded.read
  rw [hahead, htaken, ← insn.length_bytes]
  rfl

/-- An instruction is written on no more bytes than it was read from. -/
theorem Insn.length_bytes_of_read (h : Decoded.read code offset = .ok (.insn insn, next)) :
    offset + insn.bytes.length ≤ next ∧ next ≤ code.length := by
  obtain ⟨hbefore, hend, hwidth⟩ := Decoded.costs_of_read h
  have hwidth : insn.width ≤ next - offset := hwidth
  rw [insn.length_bytes]
  omega

/-- The bytes of one instruction never go on to be those of another. -/
theorem Insn.eq_of_bytes_append {back rest : Bytes} (h : insn.bytes ++ back = other.bytes ++ rest) :
    insn = other ∧ back = rest := by
  have hsame : insn = other := by
    have hinsn := Decoded.read_insn insn [] back
    rw [List.nil_append, h] at hinsn
    have hother := Decoded.read_insn other [] rest
    rw [List.nil_append, hinsn] at hother
    injection hother with hother
    injection hother with hother
    injection hother
  subst hsame
  exact ⟨rfl, List.append_cancel_left h⟩

/-- Every instruction takes the bytes that its width says and is read back from them wherever they stand. What is read
as an instruction, in whatever form, is written on no more bytes than it was read from, and these read as it again. -/
theorem Insn.recodes :
    (∀ (insn : Insn) (front back : Bytes), insn.bytes.length = insn.width ∧
      Decoded.read (front ++ insn.bytes ++ back) front.length = .ok (.insn insn, front.length + insn.width)) ∧
    ∀ (code : Bytes) (offset next : Nat) (insn : Insn), Decoded.read code offset = .ok (.insn insn, next) →
      offset + insn.bytes.length ≤ next ∧ next ≤ code.length ∧
      ∀ front back : Bytes, Decoded.read (front ++ insn.bytes ++ back) front.length =
        .ok (.insn insn, front.length + insn.width) := by
  refine ⟨fun insn front back => ⟨insn.length_bytes, Decoded.read_insn insn front back⟩, ?_⟩
  intro code offset next insn hread
  obtain ⟨hshort, hend⟩ := length_bytes_of_read hread
  exact ⟨hshort, hend, Decoded.read_insn insn⟩

/-- A wide load of a slot that is in the opcode of the shortest form, behind a `nop`. -/
theorem Insn.recodes_wideLoad : Decoded.read [0, 0xC4, 0x15, 0, 3] 1 = .ok (.insn (.load .int 3), 5) ∧
    1 + (Insn.load .int 3).bytes.length ≤ 5 ∧ (Insn.load .int 3).bytes.length = 1 ∧
    ∀ front back : Bytes, Decoded.read (front ++ (Insn.load .int 3).bytes ++ back) front.length =
      .ok (.insn (.load .int 3), front.length + 1) := by
  have hread : Decoded.read [0, 0xC4, 0x15, 0, 3] 1 = .ok (.insn (.load .int 3), 5) := by rfl
  obtain ⟨hshort, -, hback⟩ := Insn.recodes.2 _ 1 5 (.load .int 3) hread
  exact ⟨hread, hshort, (Insn.recodes.1 (.load .int 3) [] []).1, hback⟩

end ClassWeave

import WordMachine.Proofs.Execution
import WordMachine.Proofs.Meaning

/-!
# WordMachine.Proofs.StandardOperations

Over the standard set no instruction is illegal. The operands of an instruction that has field
values are of the kinds that its format asks for (`InstructionSet.kinds_of_toFields`), and with
operands of these kinds every opcode asks for something (`Operation.exists_ofInstruction`).
-/

namespace WordMachine

open Outcome

namespace Operand

def kind : Operand → OperandKind
  | register _ => .register
  | immediate _ => .immediate

end Operand

namespace InstructionSet

variable {s : InstructionSet} {op : Opcode} {f : Field} {k : Nat} {x : Operand} {v w : Word}
  {i : Instruction} {y : FieldValues}

theorem kind_of_writeField (h : writeField op k f x = .ok v) : x.kind = f.kind := by
  cases x with
  | register r => cases hk : f.kind <;> simp only [writeField, hk, reduceCtorEq] at h; rfl
  | immediate n => cases hk : f.kind <;> simp only [writeField, hk, reduceCtorEq] at h; rfl

theorem kinds_of_forFields :
    ∀ {fs : List Field} {xs : List Operand} {vs : List Word} {k : Nat}, fs.length = xs.length →
      forFields (writeField op) k fs xs = .ok vs → xs.map Operand.kind = fs.map Field.kind := by
  intro fs
  induction fs with
  | nil =>
    intro xs vs k hlen _
    rw [List.length_eq_zero_iff.1 hlen.symm]
    rfl
  | cons f fs ih =>
    intro xs vs k hlen h
    cases xs with
    | nil => simp at hlen
    | cons x xs =>
      obtain ⟨v, vs, hv, hvs, rfl⟩ := forFields_cons.1 h
      rw [List.map_cons, List.map_cons, kind_of_writeField hv, ih (by simpa using hlen) hvs]

theorem format?_standard (op : Opcode) : standard.format? op = some (Format.standard op) := by
  cases op <;> rfl

theorem kinds_of_toFields (h : standard.toFields i = .ok y) :
    i.operands.map Operand.kind = (Format.standardFields i.opcode).map Field.kind := by
  obtain ⟨f, hf, hlen, -, hvs⟩ := toFields_eq_ok.1 h
  rw [format?_standard] at hf
  cases hf
  exact kinds_of_forFields hlen.symm hvs

end InstructionSet

namespace Operation

variable {i : Instruction} {ks : List OperandKind} {n : Nat}

theorem exists_register (hk : i.operands.map Operand.kind = ks)
    (hn : ks[n]? = some .register) : ∃ r, i.register? n = some r := by
  rw [← hk, List.getElem?_map, Option.map_eq_some_iff] at hn
  obtain ⟨x, hx, hkind⟩ := hn
  cases x with
  | register r => exact ⟨r, by rw [Instruction.register?, hx]; rfl⟩
  | immediate v => cases hkind

theorem exists_word (hk : i.operands.map Operand.kind = ks)
    (hn : ks[n]? = some .immediate) : ∃ w, word? i n = some w := by
  rw [← hk, List.getElem?_map, Option.map_eq_some_iff] at hn
  obtain ⟨x, hx, hkind⟩ := hn
  cases x with
  | register r => cases hkind
  | immediate v => exact ⟨BitVec.ofInt 32 v, by rw [word?, Instruction.immediate?, hx]; rfl⟩

theorem exists_alu (hk : i.operands.map Operand.kind = [.register, .register, .register])
    (op : AluOp) : ∃ o, alu? i op = some o := by
  obtain ⟨a, ha⟩ := exists_register (n := 0) hk rfl
  obtain ⟨b, hb⟩ := exists_register (n := 1) hk rfl
  obtain ⟨c, hc⟩ := exists_register (n := 2) hk rfl
  exact ⟨.alu op a b c, by rw [alu?, ha, hb, hc]; rfl⟩

theorem exists_load (hk : i.operands.map Operand.kind = [.register, .immediate, .register])
    (width : Width) : ∃ o, load? i width = some o := by
  obtain ⟨a, ha⟩ := exists_register (n := 0) hk rfl
  obtain ⟨v, hv⟩ := exists_word (n := 1) hk rfl
  obtain ⟨b, hb⟩ := exists_register (n := 2) hk rfl
  exact ⟨.load a v b width, by rw [load?, ha, hv, hb]; rfl⟩

theorem exists_store (hk : i.operands.map Operand.kind = [.register, .register, .immediate])
    (width : Width) : ∃ o, store? i width = some o := by
  obtain ⟨a, ha⟩ := exists_register (n := 0) hk rfl
  obtain ⟨b, hb⟩ := exists_register (n := 1) hk rfl
  obtain ⟨v, hv⟩ := exists_word (n := 2) hk rfl
  exact ⟨.store a b v width, by rw [store?, ha, hb, hv]; rfl⟩

/-- With operands of the kinds of its usual format, every opcode asks for something. -/
theorem exists_ofInstruction
    (hk : i.operands.map Operand.kind = (Format.standardFields i.opcode).map Field.kind) :
    ∃ o, ofInstruction? i = some o := by
  obtain ⟨op, xs⟩ := i
  cases op with
  | nop => exact ⟨_, rfl⟩
  | halt => exact ⟨_, rfl⟩
  | mov =>
    obtain ⟨a, ha⟩ := exists_register (n := 0) hk rfl
    obtain ⟨b, hb⟩ := exists_register (n := 1) hk rfl
    exact ⟨.mov a b, by simp only [ofInstruction?, ha, hb]; rfl⟩
  | movImm16L =>
    obtain ⟨v, hv⟩ := exists_word (n := 0) hk rfl
    obtain ⟨a, ha⟩ := exists_register (n := 1) hk rfl
    exact ⟨.movLow v a, by simp only [ofInstruction?, hv, ha]; rfl⟩
  | movImm16H =>
    obtain ⟨v, hv⟩ := exists_word (n := 0) hk rfl
    obtain ⟨a, ha⟩ := exists_register (n := 1) hk rfl
    obtain ⟨b, hb⟩ := exists_register (n := 2) hk rfl
    exact ⟨.movHigh v a b, by simp only [ofInstruction?, hv, ha, hb]; rfl⟩
  | add => exact exists_alu hk _
  | sub => exact exists_alu hk _
  | mul => exact exists_alu hk _
  | div => exact exists_alu hk _
  | mod => exact exists_alu hk _
  | and => exact exists_alu hk _
  | or => exact exists_alu hk _
  | xor => exact exists_alu hk _
  | shl => exact exists_alu hk _
  | shr => exact exists_alu hk _
  | asr => exact exists_alu hk _
  | cmp => exact exists_alu hk _
  | addImm =>
    obtain ⟨a, ha⟩ := exists_register (n := 0) hk rfl
    obtain ⟨v, hv⟩ := exists_word (n := 1) hk rfl
    obtain ⟨b, hb⟩ := exists_register (n := 2) hk rfl
    exact ⟨.addImm a v b, by simp only [ofInstruction?, ha, hv, hb]; rfl⟩
  | jmp =>
    obtain ⟨a, ha⟩ := exists_register (n := 0) hk rfl
    exact ⟨.jump a, by simp only [ofInstruction?, ha]; rfl⟩
  | jmpImm =>
    obtain ⟨v, hv⟩ := exists_word (n := 0) hk rfl
    exact ⟨.jumpTo v, by simp only [ofInstruction?, hv]; rfl⟩
  | call =>
    obtain ⟨a, ha⟩ := exists_register (n := 0) hk rfl
    exact ⟨.call a, by simp only [ofInstruction?, ha]; rfl⟩
  | callImm =>
    obtain ⟨v, hv⟩ := exists_word (n := 0) hk rfl
    exact ⟨.callTo v, by simp only [ofInstruction?, hv]; rfl⟩
  | jcond =>
    obtain ⟨a, ha⟩ := exists_register (n := 0) hk rfl
    obtain ⟨v, hv⟩ := exists_word (n := 1) hk rfl
    obtain ⟨b, hb⟩ := exists_register (n := 2) hk rfl
    exact ⟨.jumpIf a v b, by simp only [ofInstruction?, ha, hv, hb]; rfl⟩
  | ldr => exact exists_load hk _
  | ldrb => exact exists_load hk _
  | str => exact exists_store hk _
  | strb => exact exists_store hk _
  | push =>
    obtain ⟨a, ha⟩ := exists_register (n := 0) hk rfl
    exact ⟨.push a, by simp only [ofInstruction?, ha]; rfl⟩
  | pop =>
    obtain ⟨a, ha⟩ := exists_register (n := 0) hk rfl
    exact ⟨.pop a, by simp only [ofInstruction?, ha]; rfl⟩

end Operation

namespace InstructionSet

variable {i : Instruction} {x : FieldValues} {w : Word}

/-- A word of an instruction that has these field values asks for something. -/
theorem operation_of_toFields (hx : standard.toFields i = .ok x) (hw : standard.pack x = .ok w) :
    ∃ o, standard.operation w = .ok (i, o) := by
  obtain ⟨o, ho⟩ := Operation.exists_ofInstruction (kinds_of_toFields hx)
  have hdec : standard.decode w = .ok i :=
    (decode_of_pack sound_standard hw).trans (ofFields_of_toFields sound_standard hx)
  exact ⟨o, operation_ok_iff.2 ⟨hdec, ho⟩⟩

end InstructionSet
end WordMachine

import WordMachine.Proofs.NamedOperands

/-!
# WordMachine.Proofs.AddressUse

What a machine does with the addresses that names have in a linked program. `Machine.CarriesOut`
says what machine the instruction of a code entry leaves behind, wherever it is carried out; at the
word of the entry it is a step (`Machine.CarriesOut.step`). The two halves of an address, moved to a
register one after the other, make up the address, and a jump or call to a name goes to its address,
from every machine (`Machine.names_of_link`).
-/

namespace WordMachine

open Outcome

/-! ## Halves of a word -/

namespace AddressPart

theorem getLsbD_lowMask (n : Nat) : (0xFFFF : Word).getLsbD n = decide (n < 16) :=
  Nat.testBit_two_pow_sub_one 16 n

/-- The upper half over a register that holds the lower half. -/
theorem join_halves (a : Word) : high.take a <<< 16 ||| (low.take a &&& 0xFFFF) &&& 0xFFFF = a := by
  refine BitVec.eq_of_getLsbD_eq fun n hn => ?_
  show ((a >>> 16) <<< 16 ||| ((a &&& 0xFFFF) &&& 0xFFFF) &&& 0xFFFF).getLsbD n = a.getLsbD n
  simp only [BitVec.getLsbD_or, BitVec.getLsbD_shiftLeft, BitVec.getLsbD_ushiftRight,
    BitVec.getLsbD_and, getLsbD_lowMask, hn]
  by_cases hlow : n < 16
  · simp [hlow]
  · have hback : 16 + (n - 16) = n := by omega
    simp [hlow, hback]

end AddressPart

/-! ## Operations on addresses -/

namespace Operation

variable {i : Instruction} {n : Nat} {part : AddressPart} {a : Word} {rd : Register}

/-- The number of a part of an address is that part as a word. -/
theorem word?_of_part (hn : i.operands[n]? = some (.immediate (part.ofNumber a.toNat))) :
    word? i n = some (part.take a) := by
  rw [word?, Instruction.immediate?, hn, ← AddressPart.toNat_take]
  simp [Operand.immediate?]

theorem movLow_of_part (hop : i.opcode = .movImm16L) (hrd : i.register? 1 = some rd)
    (hn : i.operands[0]? = some (.immediate (part.ofNumber a.toNat))) :
    ofInstruction? i = some (.movLow (part.take a) rd) := by
  simp only [ofInstruction?, hop, word?_of_part hn, hrd]
  rfl

/-- The register that keeps its lower half is the one that is written. -/
theorem movHigh_of_part (hop : i.opcode = .movImm16H) (hrd : i.register? 1 = some rd)
    (htied : i.Tied (Format.standard i.opcode))
    (hn : i.operands[0]? = some (.immediate (part.ofNumber a.toNat))) :
    ofInstruction? i = some (.movHigh (part.take a) rd rd) := by
  have hsource : i.register? 2 = some rd := by
    rw [hop] at htied
    rw [Instruction.register?, htied 1 _ rfl rfl, ← Instruction.register?, hrd]
  simp only [ofInstruction?, hop, word?_of_part hn, hrd, hsource]
  rfl

theorem jumpTo_of_part (hop : i.opcode = .jmpImm)
    (hn : i.operands[0]? = some (.immediate (part.ofNumber a.toNat))) :
    ofInstruction? i = some (.jumpTo (part.take a)) := by
  simp only [ofInstruction?, hop, word?_of_part hn]
  rfl

theorem callTo_of_part (hop : i.opcode = .callImm)
    (hn : i.operands[0]? = some (.immediate (part.ofNumber a.toNat))) :
    ofInstruction? i = some (.callTo (part.take a)) := by
  simp only [ofInstruction?, hop, word?_of_part hn]
  rfl

end Operation

namespace Effect

variable {e : Effect} {r : RegisterFile} {a w : Word} {x : Register}

theorem pc_commitRegisters : (e.commitRegisters r).pc = e.nextPc := RegisterFile.get_set_self _ _ _

theorem get_commitRegisters (hpc : x ≠ .pc) (hflags : x ≠ .cpsr) :
    (((advance a).writeRegister x w).commitRegisters r).get x = w := by
  refine get_commitRegisters_of_registers hpc hflags ?_
  simp only [writeRegister, if_neg hpc, advance, List.nil_append]

end Effect

namespace Machine

variable {p q : Program} {rules : PlacementRules} {m m' : Machine} {k : Nat} {i : Instruction}
  {o : Operation} {e : Effect} {w : Word}

/-- An operation that is not refused is carried out. -/
theorem exists_carryOut (op : Opcode) (h : Effect.changes m.registers m.memory o = .ok e) :
    ∃ r m', m.carryOut op o = (.ok r, m') ∧ m'.registers = e.commitRegisters m.registers := by
  obtain ⟨e', heffect, hregisters⟩ : ∃ e', Effect.ofOperation op o m.registers m.memory = .ok e' ∧
      e'.commitRegisters m.registers = e.commitRegisters m.registers := by
    rw [Effect.ofOperation, h]
    exact ⟨_, rfl, rfl⟩
  have hexecute : m.execute op o =
      .ok (e', e'.commitRegisters m.registers, e'.updateMemory m.memory) := by
    rw [execute, heffect, ok_bind, Effect.commit_of_ofOperation heffect]
    rfl
  simp only [carryOut, hexecute]
  exact ⟨_, _, rfl, hregisters⟩

/-- The instruction of a code entry, carried out by one machine, leaves the other. -/
def CarriesOut (q : Program) (k : Nat) (m m' : Machine) : Prop :=
  ∃ i o r, q.entryInstruction? k = some i ∧ Operation.ofInstruction? i = some o ∧
    m.carryOut i.opcode o = (.ok r, m')

/-- At the word of a code entry, a step carries out the instruction of the entry. -/
theorem CarriesOut.step {c : CodeEntry} (hm : CarriesOut q k m m')
    (hlink : p.link .standard rules = .ok q) (hc : q.code[k]? = some c)
    (hword : c.HasWord .standard w) (hset : m.instructions = .standard)
    (haligned : m.registers.pc.toNat % Word.size = 0)
    (hread : m.memory.readWord m.registers.pc = .ok w) : ∃ r, m.step = (.ok r, m') := by
  obtain ⟨i, o, r, hi, ho, hcarry⟩ := hm
  have hdecode := Program.decode_of_link hlink hi hc hword
  have hop : m.instructions.operation w = .ok (i, o) := by
    rw [hset]
    exact InstructionSet.operation_ok_iff.2 ⟨hdecode, ho⟩
  exact ⟨r, (step_of_fetch haligned hread hop).trans hcarry⟩

theorem exists_carriesOut (hi : q.entryInstruction? k = some i)
    (ho : Operation.ofInstruction? i = some o)
    (h : Effect.changes m.registers m.memory o = .ok e) :
    ∃ m', CarriesOut q k m m' ∧ m'.registers = e.commitRegisters m.registers := by
  obtain ⟨r, m', hcarry, hregisters⟩ := exists_carryOut i.opcode h
  exact ⟨m', ⟨i, o, r, hi, ho, hcarry⟩, hregisters⟩

/-- Both halves of an address, the lower one first, leave the address in a register. -/
theorem get_of_halves {low high : Nat} {il ih : Instruction} {rd : Register} {a : Word}
    (hlow : q.entryInstruction? low = some il)
    (hol : Operation.ofInstruction? il = some (.movLow (AddressPart.low.take a) rd))
    (hhigh : q.entryInstruction? high = some ih)
    (hoh : Operation.ofInstruction? ih = some (.movHigh (AddressPart.high.take a) rd rd))
    (hpc : rd ≠ .pc) (hflags : rd ≠ .cpsr) (m : Machine) :
    ∃ m₁ m₂, CarriesOut q low m m₁ ∧ CarriesOut q high m₁ m₂ ∧ m₂.registers.get rd = a := by
  obtain ⟨m₁, hm₁, hr₁⟩ := exists_carriesOut (m := m) hlow hol rfl
  obtain ⟨m₂, hm₂, hr₂⟩ := exists_carriesOut (m := m₁) hhigh hoh rfl
  have hfirst : m₁.registers.get rd = AddressPart.low.take a &&& 0xFFFF := by
    rw [hr₁, Effect.get_commitRegisters hpc hflags]
  refine ⟨m₁, m₂, hm₁, hm₂, ?_⟩
  rw [hr₂, Effect.get_commitRegisters hpc hflags, hfirst, AddressPart.join_halves]

variable {name : String} {a : Word}

/-- A jump or a call to an address goes there. -/
theorem pc_of_transfer (hi : q.entryInstruction? k = some i)
    (hop : i.opcode = .callImm ∨ i.opcode = .jmpImm)
    (hn : i.operands[0]? = some (.immediate (AddressPart.whole.ofNumber a.toNat))) (m : Machine) :
    ∃ m', CarriesOut q k m m' ∧ m'.registers.pc = a := by
  rcases hop with hop | hop
  · obtain ⟨m', hm', hr⟩ := exists_carriesOut (m := m) hi (Operation.callTo_of_part hop hn) rfl
    exact ⟨m', hm', by rw [hr, Effect.pc_commitRegisters]; rfl⟩
  · obtain ⟨m', hm', hr⟩ := exists_carriesOut (m := m) hi (Operation.jumpTo_of_part hop hn) rfl
    exact ⟨m', hm', by rw [hr, Effect.pc_commitRegisters]; rfl⟩

/-- **Names are exact.** Where the text of a program that links over the standard set has a name for
a number, the number is the whole address of what the name stands for in the linked program, or
exactly its lower or upper half, and so it is in the word of the entry. From every machine, moving
the lower and then the upper half to one register leaves the address there, and calling a name or
jumping to it goes to its address. -/
theorem names_of_link (h : p.link .standard rules = .ok q) :
    (∀ {k operand name part}, Program.Names p q k operand name part →
      ∃ i a, q.entryInstruction? k = some i ∧ q.addressOf? name = some a ∧
        i.operands[operand]? = some (.immediate (part.ofNumber a.toNat)) ∧
          ∀ c w, q.code[k]? = some c → c.HasWord .standard w →
            InstructionSet.standard.decode w = .ok i) ∧
    (∀ {low high name il ih rd}, Program.Names p q low 0 name .low →
      Program.Names p q high 0 name .high →
        q.entryInstruction? low = some il → il.opcode = .movImm16L → il.register? 1 = some rd →
          q.entryInstruction? high = some ih → ih.opcode = .movImm16H → ih.register? 1 = some rd →
            rd ≠ .pc → rd ≠ .cpsr →
              ∃ a, q.addressOf? name = some a ∧ ∀ m, ∃ m₁ m₂, CarriesOut q low m m₁ ∧
                CarriesOut q high m₁ m₂ ∧ m₂.registers.get rd = a) ∧
    ∀ {k name i}, Program.Names p q k 0 name .whole → q.entryInstruction? k = some i →
      i.opcode = .callImm ∨ i.opcode = .jmpImm →
        ∃ a, q.addressOf? name = some a ∧ ∀ m, ∃ m', CarriesOut q k m m' ∧ m'.registers.pc = a := by
  refine ⟨?_, ?_, ?_⟩
  · intro k operand name part hname
    obtain ⟨i, a, hi, ha, hn⟩ := hname.exact h
    exact ⟨i, a, hi, ha, hn, fun c w => Program.decode_of_link h hi⟩
  · intro low high name il ih rd hlow hhigh hil hopl hrl hih hoph hrh hpc hflags
    obtain ⟨il', a, hil', ha, hnl⟩ := hlow.exact h
    obtain ⟨ih', a', hih', ha', hnh⟩ := hhigh.exact h
    cases hil.symm.trans hil'
    cases hih.symm.trans hih'
    cases ha.symm.trans ha'
    have hol := Operation.movLow_of_part hopl hrl hnl
    have hoh := Operation.movHigh_of_part hoph hrh (Program.tied_of_link h hih) hnh
    exact ⟨a, ha, get_of_halves hil hol hih hoh hpc hflags⟩
  · intro k name i hname hi hop
    obtain ⟨i', a, hi', ha, hn⟩ := hname.exact h
    cases hi.symm.trans hi'
    exact ⟨a, ha, pc_of_transfer hi hop hn⟩

/-- Code that loads the address of a global and calls its own start, the call not as text. The first
reference is to the whole address, and the text asks for a half of it. -/
def pointing : Program where
  fileName := "unit.o"
  code := [
    { text := some "movimm16l buffer@lo, r3", references := [{ name := "buffer" }] },
    { text := some "movimm16h buffer@hi, r3", references := [{ name := "buffer", part := .high }] },
    { instruction := some ⟨.callImm, [.immediate 0x123000]⟩
      references := [{ name := "start", operand := some 0 }] }]
  globals := [{ name := "buffer", size := 8 }]
  labels := [{ name := "start", index := some 0 }]

theorem names_of_link_pointing : ∃ q, pointing.link .standard { base := 0x123000 } = .ok q ∧
    ∀ m, (∃ m₁ m₂, CarriesOut q 0 m m₁ ∧ CarriesOut q 1 m₁ m₂ ∧
      m₂.registers.get .r3 = 0x12300C) ∧
        ∃ m', CarriesOut q 2 m m' ∧ m'.registers.pc = 0x123000 := by
  obtain ⟨q, e, hlink, he, ⟨hfirst, hsecond, hthird⟩, hi, hnaming, hbuffer, hstart⟩ :
      ∃ q e, pointing.link .standard { base := 0x123000 } = .ok q ∧ q.code[2]? = some e ∧
      (q.entryInstruction? 0 = some ⟨.movImm16L, [.immediate 0x300C, .register .r3]⟩ ∧
        q.entryInstruction? 1 =
          some ⟨.movImm16H, [.immediate 0x12, .register .r3, .register .r3]⟩ ∧
        q.entryInstruction? 2 = some ⟨.callImm, [.immediate 0x123000]⟩) ∧
      e.instruction = some ⟨.callImm, [.immediate 0x123000]⟩ ∧
      q.naming? e.references 0 0x123000 =
        some { name := "start", target := some (.label 0), operand := some 0 } ∧
      q.addressOf? "buffer" = some 0x12300C ∧ q.addressOf? "start" = some 0x123000 :=
    ⟨_, _, rfl, rfl, by decide +kernel, by decide +kernel, by decide +kernel, by decide +kernel,
      by decide +kernel⟩
  have hlow : Program.Names pointing q 0 0 "buffer" .low :=
    .read rfl rfl (show _ = _ :: ["buffer@lo", "r3"] from rfl) rfl (by decide +kernel)
      (show (Field.unsigned 5 16).kind = .immediate from rfl) (by decide +kernel)
      (by decide +kernel)
  have hhigh : Program.Names pointing q 1 0 "buffer" .high :=
    .read rfl rfl (show _ = _ :: ["buffer@hi", "r3"] from rfl) rfl (by decide +kernel)
      (show (Field.unsigned 5 16).kind = .immediate from rfl) (by decide +kernel)
      (by decide +kernel)
  have hwhole : Program.Names pointing q 2 0 "start" .whole :=
    .printed rfl rfl he hi rfl hnaming rfl rfl
  obtain ⟨-, hload, hgo⟩ := names_of_link hlink
  obtain ⟨a, ha, hloads⟩ :=
    hload hlow hhigh hfirst rfl rfl hsecond rfl rfl (by decide) (by decide)
  obtain ⟨b, hb, hgoes⟩ := hgo hwhole hthird (.inl rfl)
  cases hbuffer.symm.trans ha
  cases hstart.symm.trans hb
  exact ⟨q, hlink, fun m => ⟨hloads m, hgoes m⟩⟩

end Machine
end WordMachine

import WordMachine.Machine.Basic
import WordMachine.Proofs.MemoryBytes
import WordMachine.Proofs.PlacedProgram
import WordMachine.Proofs.StandardOperations

/-!
# WordMachine.Proofs.LoadedImage

The memory that a linked program is loaded into, byte by byte: the words of the code, zeros up to
the data, the globals one after the other, and zeros above them (`Image.Lays`). Writing the code
and the globals fills the window from its base up (`Image.writeCode_fills`,
`Image.writeGlobals_fills`), so that nothing is written twice.

`Machine.load_of_link` says what this comes to: the only error is an image that is too large, every
instruction is found at its address, every global has its bytes, and all else is zero.
-/

namespace WordMachine

open Outcome InstructionSet

/-! ## Bytes of entries and globals -/

namespace CodeEntry

/-- The bytes of the entry's word, none if it has no word. -/
def bytes (s : InstructionSet) (e : CodeEntry) : List Byte :=
  match e.fields.map s.pack with
  | some (.ok w) => w.toBytes
  | _ => []

/-- Whether an address lies in the word of the entry. -/
def Covers (e : CodeEntry) (a : Word) : Prop :=
  ∃ b, e.address = some b ∧ b.toNat ≤ a.toNat ∧ a.toNat < b.toNat + Word.size

/-- An entry that has a word. -/
def HasWord (s : InstructionSet) (e : CodeEntry) (w : Word) : Prop :=
  ∃ x, e.fields = some x ∧ s.pack x = .ok w

theorem HasWord.bytes_eq {s : InstructionSet} {e : CodeEntry} {w : Word} (h : e.HasWord s w) :
    e.bytes s = w.toBytes := by
  obtain ⟨x, hx, hw⟩ := h
  rw [bytes, hx, Option.map_some, hw]

theorem length_flatMap_bytes {s : InstructionSet} :
    ∀ {es : List CodeEntry}, (∀ e ∈ es, ∃ w, e.HasWord s w) →
      (es.flatMap (bytes s)).length = es.length * Word.size := by
  intro es
  induction es with
  | nil => intro _; rfl
  | cons e es ih =>
    intro h
    rw [List.forall_mem_cons] at h
    obtain ⟨⟨w, hw⟩, hes⟩ := h
    rw [List.flatMap_cons, List.length_append, hw.bytes_eq, ih hes, List.length_cons, Nat.add_mul,
      Word.length_toBytes]
    omega

end CodeEntry

namespace Global

/-- The bytes that the global starts with: its own and zeros up to its size. -/
def bytes (g : Global) : List Byte :=
  g.initial.getD [] ++ List.replicate (g.size.toNat - g.initialSize) 0

/-- Whether an address lies in the global. -/
def Covers (g : Global) (a : Word) : Prop :=
  ∃ b, g.address = some b ∧ b.toNat ≤ a.toNat ∧ a.toNat < b.toNat + g.size.toNat

theorem length_initial (g : Global) : (g.initial.getD []).length = g.initialSize := by
  rw [initialSize]
  cases g.initial <;> rfl

theorem length_bytes {g : Global} (h : g.initialSize ≤ g.size.toNat) :
    g.bytes.length = g.size.toNat := by
  rw [bytes, List.length_append, length_initial, List.length_replicate]
  omega

theorem length_flatMap_bytes :
    ∀ {gs : List Global}, (∀ g ∈ gs, g.initialSize ≤ g.size.toNat) →
      (gs.flatMap bytes).length = dataSize gs := by
  intro gs
  induction gs with
  | nil => intro _; rfl
  | cons g gs ih =>
    intro h
    rw [List.forall_mem_cons] at h
    rw [List.flatMap_cons, List.length_append, length_bytes h.1, ih h.2, dataSize_cons]

end Global

/-! ## Filling the window -/

/-- The code lies from an address up, and every entry has a word. -/
def CodeAt (s : InstructionSet) (start : Nat) (es : List CodeEntry) : Prop :=
  ∀ (k : Nat) e, es[k]? = some e →
    ∃ a w, e.address = some a ∧ a.toNat = start + k * Word.size ∧ e.HasWord s w

theorem CodeAt.tail {s : InstructionSet} {start : Nat} {e : CodeEntry} {es : List CodeEntry}
    (h : CodeAt s start (e :: es)) : CodeAt s (start + Word.size) es := by
  intro k e' he'
  obtain ⟨a, w, ha, hat, hw⟩ := h (k + 1) e' he'
  rw [Nat.add_mul] at hat
  exact ⟨a, w, ha, by omega, hw⟩

theorem CodeAt.hasWord {s : InstructionSet} {start : Nat} {es : List CodeEntry}
    (h : CodeAt s start es) : ∀ e ∈ es, ∃ w, e.HasWord s w := by
  intro e he
  obtain ⟨k, hk⟩ := List.getElem?_of_mem he
  obtain ⟨_, w, _, _, hw⟩ := h k e hk
  exact ⟨w, hw⟩

theorem CodeAt.exists_covers {s : InstructionSet} {start : Nat} {es : List CodeEntry} {a : Word}
    (h : CodeAt s start es) (hle : start ≤ a.toNat)
    (hlt : a.toNat < start + es.length * Word.size) : ∃ e ∈ es, e.Covers a := by
  unfold Word.size at hlt
  have hk : (a.toNat - start) / 4 < es.length := by omega
  obtain ⟨b, _, hb, hbat, -⟩ := h _ _ (List.getElem?_eq_getElem hk)
  unfold Word.size at hbat
  refine ⟨_, List.getElem_mem hk, b, hb, by omega, ?_⟩
  unfold Word.size
  omega

/-- The globals lie from an address up, and none has more bytes of its own than it takes. -/
def GlobalsAt (start : Nat) (gs : List Global) : Prop :=
  ∀ (k : Nat) g, gs[k]? = some g → g.initialSize ≤ g.size.toNat ∧
    ∃ a, g.address = some a ∧ a.toNat = start + dataOffset gs k

theorem GlobalsAt.initialSize_le {start : Nat} {gs : List Global} (h : GlobalsAt start gs) :
    ∀ g ∈ gs, g.initialSize ≤ g.size.toNat := by
  intro g hg
  obtain ⟨k, hk⟩ := List.getElem?_of_mem hg
  exact (h k g hk).1

theorem GlobalsAt.tail {start : Nat} {g : Global} {gs : List Global}
    (h : GlobalsAt start (g :: gs)) : GlobalsAt (start + g.size.toNat) gs := by
  intro k g' hg'
  obtain ⟨hsize, a, ha, hat⟩ := h (k + 1) g' hg'
  rw [dataOffset_cons_succ] at hat
  exact ⟨hsize, a, ha, by omega⟩

theorem GlobalsAt.exists_covers {start : Nat} {gs : List Global} {a : Word}
    (h : GlobalsAt start gs) (hle : start ≤ a.toNat) (hlt : a.toNat < start + dataSize gs) :
    ∃ g ∈ gs, g.Covers a := by
  have hj : a.toNat - start < dataSize gs := by omega
  obtain ⟨k, g, hg, hle', hlt'⟩ := exists_global_at hj
  obtain ⟨_, b, hb, hbat⟩ := h k g hg
  exact ⟨g, List.mem_of_getElem? hg, b, hb, by omega, by omega⟩

namespace Image

variable {s : InstructionSet} {n : Nat}

/-- Writing code at the end of what a window holds puts the words there. -/
theorem writeCode_fills :
    ∀ {es : List CodeEntry} (index : Nat) {m : Memory} {bs : List Byte},
      CodeAt s (m.base.toNat + bs.length) es → m.Holds bs (es.length * Word.size + n) →
        ∃ m', writeCode s index m es = .ok m' ∧ m'.base = m.base ∧
          m'.Holds (bs ++ es.flatMap (CodeEntry.bytes s)) n := by
  intro es
  induction es with
  | nil =>
    intro index m bs _ h
    refine ⟨m, rfl, rfl, ?_⟩
    simpa using h
  | cons e es ih =>
    intro index m bs hes h
    obtain ⟨a, w, ha, hat, hw⟩ := hes 0 e rfl
    have hroom : (e :: es).length * Word.size + n =
        w.toBytes.length + (es.length * Word.size + n) := by
      rw [List.length_cons, Nat.add_mul, Word.length_toBytes]
      omega
    rw [hroom] at h
    obtain ⟨m₁, hwrite, hbase, h₁⟩ := h.write (a := a) (by omega)
    have hrest : CodeAt s (m₁.base.toNat + (bs ++ w.toBytes).length) es := by
      rw [hbase, List.length_append, Word.length_toBytes, ← Nat.add_assoc]
      exact hes.tail
    obtain ⟨m', hcode, hbase', h'⟩ := ih (index + 1) hrest h₁
    refine ⟨m', ?_, hbase'.trans hbase, ?_⟩
    · obtain ⟨x, hx, hpack⟩ := hw
      simp only [writeCode, ha, hx, hpack, Memory.writeWord, hwrite, hcode]
    · rw [List.flatMap_cons, hw.bytes_eq, ← List.append_assoc]
      exact h'

/-- Writing globals at the end of what a window holds puts their bytes there. -/
theorem writeGlobals_fills :
    ∀ {gs : List Global} {m : Memory} {bs : List Byte},
      GlobalsAt (m.base.toNat + bs.length) gs → m.Holds bs (dataSize gs + n) →
        ∃ m', writeGlobals m gs = .ok m' ∧ m'.base = m.base ∧
          m'.Holds (bs ++ gs.flatMap Global.bytes) n := by
  intro gs
  induction gs with
  | nil =>
    intro m bs _ h
    refine ⟨m, rfl, rfl, ?_⟩
    simpa [dataSize, bytesOf] using h
  | cons g gs ih =>
    intro m bs hgs h
    obtain ⟨hsize, a, ha, hat⟩ := hgs 0 g rfl
    have hroom : dataSize (g :: gs) + n = (g.initial.getD []).length +
        (g.size.toNat - g.initialSize + (dataSize gs + n)) := by
      rw [dataSize_cons, g.length_initial]
      omega
    rw [hroom] at h
    -- What the global comes with is written, and the zeros after it are passed over.
    have hfirst : ∃ m₁, writeGlobals m (g :: gs) = writeGlobals m₁ gs ∧ m₁.base = m.base ∧
        m₁.Holds (bs ++ g.initial.getD []) (g.size.toNat - g.initialSize + (dataSize gs + n)) := by
      cases hi : g.initial with
      | none =>
        refine ⟨m, by simp only [writeGlobals, ha, hi], rfl, ?_⟩
        rw [hi] at h
        simpa using h
      | some data =>
        rw [hi, Option.getD_some] at h
        obtain ⟨m₁, hwrite, hbase, h₁⟩ := h.write (a := a) hat
        exact ⟨m₁, by simp only [writeGlobals, ha, hi, hwrite], hbase, h₁⟩
    obtain ⟨m₁, hwrite, hbase, h₁⟩ := hfirst
    have h₂ := h₁.skip
    rw [List.append_assoc] at h₂
    have hrest : GlobalsAt (m₁.base.toNat + (bs ++ g.bytes).length) gs := by
      rw [hbase, List.length_append, Global.length_bytes hsize, ← Nat.add_assoc]
      exact hgs.tail
    obtain ⟨m', hglobals, hbase', h'⟩ := ih hrest h₂
    refine ⟨m', hwrite.trans hglobals, hbase'.trans hbase, ?_⟩
    rw [List.flatMap_cons, ← List.append_assoc]
    exact h'

variable {p q : Program} {rules : PlacementRules} {map : MemoryMap} {m : Memory}

theorem codeAt_of_placedBy (hp : Program.PlacedBy rules map q)
    (hstride : map.stride.toNat = Word.size) (hwords : ∀ e ∈ q.code, ∃ w, e.HasWord s w) :
    CodeAt s map.base.toNat q.code := by
  intro k e he
  obtain ⟨a, ha, hat⟩ := hp.code k e he
  obtain ⟨w, hw⟩ := hwords e (List.mem_of_getElem? he)
  rw [hstride] at hat
  exact ⟨a, w, ha, hat, hw⟩

theorem globalsAt_of_placedBy (hp : Program.PlacedBy rules map q)
    (hfinish : map.dataStart.toNat + dataSize q.globals < 2 ^ 32) :
    GlobalsAt map.dataStart.toNat q.globals := by
  intro k g hg
  obtain ⟨ha, hsize⟩ := hp.globals k g hg
  have hoffset := dataOffset_le_dataSize q.globals k
  refine ⟨hsize, _, ha, ?_⟩
  rw [BitVec.toNat_add, BitVec.toNat_ofNat]
  omega

/-- The memory of a loaded program, from its base up: the words of the code, zeros up to the data,
the globals, and zeros. -/
structure Lays (s : InstructionSet) (map : MemoryMap) (q : Program) (m : Memory) : Prop where
  base : m.base = map.base
  code : CodeAt s map.base.toNat q.code
  gap : map.base.toNat + q.code.length * Word.size ≤ map.dataStart.toNat
  globals : GlobalsAt map.dataStart.toNat q.globals
  bytes : ∃ rest, m.bytes.toList =
    q.code.flatMap (CodeEntry.bytes s) ++
      List.replicate (map.dataStart.toNat - (map.base.toNat + q.code.length * Word.size)) 0 ++
      q.globals.flatMap Global.bytes ++ List.replicate rest 0

/-- A placed program of which every entry has a word is loaded unless its image is too large. -/
theorem ofProgram_lays (stackSize : Word) (hp : Program.PlacedBy rules map q)
    (hstride : map.stride.toNat = Word.size)
    (hwords : ∀ e ∈ q.code, ∃ w, e.HasWord s w) :
    ofProgram s stackSize q = .error (.imageTooLarge map.base (sizeOf map stackSize)) ∨
      ∃ m, ofProgram s stackSize q = .ok m ∧ Lays s map q m := by
  have hmap : mapOf q = .ok map := by rw [mapOf, hp.memoryMap]; simp only [hstride, if_true]
  have hcode := hp.plan.code_le_dataStart
  have htotal : map.base.toNat + map.totalSize.toNat =
      map.dataStart.toNat + dataSize q.globals := hp.plan.base_add_totalSize
  rw [hstride] at hcode
  by_cases hlarge : sentinel.toNat < map.base.toNat + sizeOf map stackSize
  · left
    simp only [ofProgram, hmap]
    exact if_pos hlarge
  · right
    have hsize : map.totalSize.toNat ≤ sizeOf map stackSize :=
      Nat.le_trans (le_alignUp _ _) (Nat.le_add_right _ _)
    have hsentinel : sentinel.toNat < 2 ^ 32 := sentinel.isLt
    -- The room that the code, the gap before the data, and the data leave at the end.
    obtain ⟨rest, hrest⟩ := Nat.exists_eq_add_of_le hsize
    have hroom : sizeOf map stackSize = q.code.length * Word.size +
        ((map.dataStart.toNat - (map.base.toNat + q.code.length * Word.size)) +
          (dataSize q.globals + rest)) := by omega
    have hzeros := Memory.holds_zeros map.base (sizeOf map stackSize)
    rw [hroom] at hzeros
    have hentries := codeAt_of_placedBy hp hstride hwords
    obtain ⟨m₁, hm₁, hbase₁, h₁⟩ := writeCode_fills 0 hentries hzeros
    have h₂ := h₁.skip
    have hlen : (q.code.flatMap (CodeEntry.bytes s)).length = q.code.length * Word.size :=
      CodeEntry.length_flatMap_bytes hwords
    have hstart : m₁.base.toNat + ([] ++ q.code.flatMap (CodeEntry.bytes s) ++ List.replicate
        (map.dataStart.toNat - (map.base.toNat + q.code.length * Word.size)) 0).length =
        map.dataStart.toNat := by
      have hbase : m₁.base.toNat = map.base.toNat := congrArg BitVec.toNat hbase₁
      rw [List.nil_append, List.length_append, List.length_replicate, hlen, hbase]
      omega
    have hglobals : GlobalsAt map.dataStart.toNat q.globals :=
      globalsAt_of_placedBy hp (by omega)
    obtain ⟨m₂, hm₂, hbase₂, h₃⟩ := writeGlobals_fills (by rw [hstart]; exact hglobals) h₂
    refine ⟨m₂, ?_, hbase₂.trans hbase₁, hentries, hcode, hglobals, rest, h₃⟩
    simp only [ofProgram, bind_ok_iff, throw_bind, guard_ok_iff]
    rw [← hroom] at hm₁
    exact ⟨map, hmap, hlarge, m₁, hm₁, hm₂⟩

/-! ## Reading the window -/

theorem flatMap_eq_append {α : Type} {f : α → List Byte} {xs : List α} {k : Nat} {x : α}
    (h : xs[k]? = some x) :
    xs.flatMap f = (xs.take k).flatMap f ++ f x ++ (xs.drop (k + 1)).flatMap f := by
  obtain ⟨hk, rfl⟩ := List.getElem?_eq_some_iff.1 h
  have hsplit : xs = xs.take k ++ xs[k] :: xs.drop (k + 1) := by
    rw [← List.drop_eq_getElem_cons hk, List.take_append_drop]
  rw [List.append_assoc, ← List.flatMap_cons, ← List.flatMap_append, ← hsplit]

theorem Lays.readWord {k : Nat} {e : CodeEntry} {w : Word} (hl : Lays s map q m)
    (he : q.code[k]? = some e) (hw : e.HasWord s w) :
    ∃ a, e.address = some a ∧ m.readWord a = .ok w := by
  obtain ⟨rest, hbytes⟩ := hl.bytes
  obtain ⟨a, _, ha, hat, -⟩ := hl.code k e he
  obtain ⟨hk, -⟩ := List.getElem?_eq_some_iff.1 he
  have hlen : ((q.code.take k).flatMap (CodeEntry.bytes s)).length = k * Word.size := by
    rw [CodeEntry.length_flatMap_bytes fun e he => hl.code.hasWord e (List.mem_of_mem_take he),
      List.length_take, Nat.min_eq_left (Nat.le_of_lt hk)]
  rw [flatMap_eq_append he, hw.bytes_eq] at hbytes
  simp only [List.append_assoc] at hbytes
  rw [← List.append_assoc] at hbytes
  have hread : m.read a Word.size = .ok w.toBytes :=
    Memory.read_of_toList hbytes (by rw [hl.base, hlen, hat])
  refine ⟨a, ha, ?_⟩
  rw [Memory.readWord, hread, Except.map, Word.ofBytes_toBytes]

theorem Lays.read_global {k : Nat} {g : Global} (hl : Lays s map q m)
    (hg : q.globals[k]? = some g) :
    ∃ a, g.address = some a ∧ m.read a g.size.toNat = .ok g.bytes := by
  obtain ⟨rest, hbytes⟩ := hl.bytes
  obtain ⟨hsize, a, ha, hat⟩ := hl.globals k g hg
  have hcode := CodeEntry.length_flatMap_bytes hl.code.hasWord
  have hlen : ((q.globals.take k).flatMap Global.bytes).length = dataOffset q.globals k :=
    Global.length_flatMap_bytes fun g hg => hl.globals.initialSize_le g (List.mem_of_mem_take hg)
  have hgap := hl.gap
  rw [flatMap_eq_append hg] at hbytes
  simp only [← List.append_assoc] at hbytes
  rw [List.append_assoc _ _ (List.replicate rest 0)] at hbytes
  refine ⟨a, ha, ?_⟩
  rw [← Global.length_bytes hsize]
  refine Memory.read_of_toList hbytes ?_
  rw [hl.base, hat, List.length_append, List.length_append, hcode, hlen, List.length_replicate]
  omega

theorem getD_replicate_zero {k j : Nat} : ((List.replicate k (0 : Byte))[j]?).getD 0 = 0 := by
  rw [List.getElem?_replicate]
  split <;> rfl

/-- What belongs neither to the code nor to a global is zero. -/
theorem Lays.readByte_elsewhere {a : Word} (hl : Lays s map q m) (ha : m.Contains a 1)
    (hcode : ∀ e ∈ q.code, ¬ e.Covers a) (hglobals : ∀ g ∈ q.globals, ¬ g.Covers a) :
    m.readByte a = .ok 0 := by
  obtain ⟨rest, hbytes⟩ := hl.bytes
  have hcodeLength := CodeEntry.length_flatMap_bytes hl.code.hasWord
  have hdataLength := Global.length_flatMap_bytes hl.globals.initialSize_le
  have hgap := hl.gap
  have hat : a.toNat = map.base.toNat + m.offset a := by
    rw [← hl.base, Memory.offset, Nat.add_sub_cancel' ha.1]
  have hnotCode : q.code.length * Word.size ≤ m.offset a := by
    refine Nat.le_of_not_lt fun hin => ?_
    obtain ⟨e, he, hcovers⟩ := hl.code.exists_covers (a := a) (by omega) (by omega)
    exact hcode e he hcovers
  have hnotData : m.offset a < map.dataStart.toNat - map.base.toNat ∨
      map.dataStart.toNat - map.base.toNat + dataSize q.globals ≤ m.offset a := by
    refine Classical.byContradiction fun hin => ?_
    obtain ⟨g, hg, hcovers⟩ := hl.globals.exists_covers (a := a) (by omega) (by omega)
    exact hglobals g hg hcovers
  rw [Memory.readByte, if_pos ha, ← Array.getElem?_toList, hbytes]
  congr 1
  rcases hnotData with hbelow | habove
  · -- Between the code and the data.
    rw [List.getElem?_append_left, List.getElem?_append_left, List.getElem?_append_right,
      getD_replicate_zero]
    · omega
    · rw [List.length_append, List.length_replicate]
      omega
    · rw [List.length_append, List.length_append, List.length_replicate]
      omega
  · -- Above the data.
    rw [List.getElem?_append_right, getD_replicate_zero]
    rw [List.length_append, List.length_append, List.length_replicate]
    omega

end Image

namespace Program

/-- Linked from text or instructions, every entry has a word. -/
theorem hasWord_of_link {p q : Program} {rules : PlacementRules}
    (hlink : p.link .standard rules = .ok q)
    (hforms : ∀ e ∈ p.code, e.text.isSome ∨ e.instruction.isSome) :
    ∀ e ∈ q.code, ∃ w, e.HasWord .standard w := by
  intro e he
  obtain ⟨_, x, _, w, _, hx, _, hw, _⟩ := agrees_of_link hlink hforms e he
  exact ⟨w, x, hx, hw⟩

end Program

namespace Machine

variable {p q : Program} {rules : PlacementRules}

/-- What a machine does with a placed program of which every entry has a word. -/
theorem load_lays {s : InstructionSet} {map : MemoryMap} (settings : MachineSettings)
    (hp : Program.PlacedBy rules map q)
    (hstride : map.stride.toNat = Word.size) (hwords : ∀ e ∈ q.code, ∃ w, e.HasWord s w) :
    (∃ base size, load q s settings = .error (.imageTooLarge base size)) ∨
      ∃ m, load q s settings = .ok m ∧ Image.Lays s map q m.memory := by
  have hmap : Image.mapOf q = .ok map := by
    rw [Image.mapOf, hp.memoryMap]
    simp only [hstride, if_true]
  rcases Image.ofProgram_lays settings.stackSize hp hstride hwords with
    hlarge | ⟨image, himage, hlays⟩
  · refine .inl ⟨map.base, Image.sizeOf map settings.stackSize, ?_⟩
    simp only [load, hmap, hlarge]
    rfl
  · have hload : ∃ m, load q s settings = .ok m ∧ m.memory = image := by
      simp only [load, hmap, himage]
      exact ⟨_, rfl, rfl⟩
    obtain ⟨m, hm, rfl⟩ := hload
    exact .inr ⟨m, hm, hlays⟩

/-- **A linked program is loaded as it is.** A program that came as text or instructions and was
linked over the standard set can only be refused for the size of its image. Otherwise each
instruction is found at its address and asks for something, each global has its bytes followed by
zeros, and every other byte is zero. -/
theorem load_of_link (settings : MachineSettings)
    (hforms : ∀ e ∈ p.code, e.text.isSome ∨ e.instruction.isSome) (hstride : rules.stride = 4)
    (hlink : p.link .standard rules = .ok q) :
    (∃ base size, load q .standard settings = .error (.imageTooLarge base size)) ∨
      ∃ m, load q .standard settings = .ok m ∧
        (∀ e ∈ q.code, ∃ a w i o, e.address = some a ∧ e.instruction = some i ∧
          m.memory.readWord a = .ok w ∧ InstructionSet.standard.operation w = .ok (i, o)) ∧
        (∀ g ∈ q.globals, ∃ a, g.address = some a ∧
          m.memory.read a g.size.toNat = .ok g.bytes) ∧
        ∀ a, m.memory.Contains a 1 → (∀ e ∈ q.code, ¬ e.Covers a) →
          (∀ g ∈ q.globals, ¬ g.Covers a) → m.memory.readByte a = .ok 0 := by
  have hagrees := Program.agrees_of_link hlink hforms
  obtain ⟨map, hplaced⟩ := Program.placedBy_of_link hlink
  have hword : map.stride.toNat = Word.size := by rw [hplaced.plan.stride, hstride]; rfl
  refine (load_lays settings hplaced hword (Program.hasWord_of_link hlink hforms)).imp_right ?_
  rintro ⟨m, hload, hlays⟩
  refine ⟨m, hload, ?_, ?_, fun a => hlays.readByte_elsewhere⟩
  · intro e he
    obtain ⟨k, hk⟩ := List.getElem?_of_mem he
    obtain ⟨_, x, i, w, _, hx, hi, hw, _, hfields⟩ := hagrees e he
    obtain ⟨a, ha, hread⟩ := hlays.readWord hk ⟨x, hx, hw⟩
    obtain ⟨o, ho⟩ := operation_of_toFields hfields hw
    exact ⟨a, w, i, o, ha, hi, hread, ho⟩
  · intro g hg
    obtain ⟨k, hk⟩ := List.getElem?_of_mem hg
    exact hlays.read_global hk

/-- Text that refers to a global, and an instruction. -/
def counting : Program where
  fileName := "unit.o"
  code := [
    { text := some "movimm16l counter@lo, r3"
      references := [{ name := "counter", part := .low }] },
    { instruction := some ⟨.halt, []⟩ }]
  globals := [{ name := "counter", size := 6, initial := some [1, 2] }]

theorem load_of_link_counting : ∃ q m, counting.link .standard { dataAlignment := 16 } = .ok q ∧
    load q .standard { stackSize := 8 } = .ok m ∧
      m.memory.read 0x1010 6 = .ok [1, 2, 0, 0, 0, 0] ∧
      ∃ w o, m.memory.readWord 0x1000 = .ok w ∧ InstructionSet.standard.operation w =
        .ok (⟨.movImm16L, [.immediate 0x1010, .register .r3]⟩, o) := by
  have hrun : ∃ q m e g, counting.link .standard { dataAlignment := 16 } = .ok q ∧
      load q .standard { stackSize := 8 } = .ok m ∧
      (e ∈ q.code ∧ e.address = some 0x1000 ∧
        e.instruction = some ⟨.movImm16L, [.immediate 0x1010, .register .r3]⟩) ∧
      g ∈ q.globals ∧ g.address = some 0x1010 ∧ g.size = 6 ∧ g.initial = some [1, 2] :=
    ⟨_, _, _, _, rfl, rfl, ⟨List.mem_cons_self, rfl, rfl⟩, List.mem_cons_self, rfl, rfl, rfl⟩
  obtain ⟨q, m, e, g, hlink, hload, ⟨he, hea, hei⟩, hg, hga, hgs, hgi⟩ := hrun
  rcases load_of_link { stackSize := 8 } (by decide) rfl hlink with
    ⟨_, _, hlarge⟩ | ⟨m', hload', hcode, hglobals, -⟩
  · rw [hload] at hlarge
    cases hlarge
  · rw [hload] at hload'
    cases hload'
    obtain ⟨a, w, i, o, ha, hi, hw, ho⟩ := hcode e he
    obtain ⟨b, hb, hread⟩ := hglobals g hg
    cases hea.symm.trans ha
    cases hei.symm.trans hi
    cases hga.symm.trans hb
    refine ⟨q, m, hlink, hload, ?_, w, o, hw, ho⟩
    simpa [Global.bytes, Global.initialSize, hgs, hgi] using hread

end Machine
end WordMachine

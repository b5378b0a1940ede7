import Unxorer.Emulator.PackedCode

/-!
# Encryption and decryption in a run

A program that encrypts or decrypts a block with the instructions of AES-NI is a straight line:
the first round key is added with `pxor`, and one round follows the other. In a run it leaves
the block that the standard says in its register and everything else as it was, for any number
of rounds and with round keys in registers or in memory.

## Main definitions

* `encryption`, `decryption` — the straight lines
* `Carried` — what a stretch of a run has made of a block in a register

## Main results

* `encryption_of_trace` — the run encrypts
* `decryption_of_trace` — the run decrypts, and restores what was encrypted
-/

set_option autoImplicit false

namespace Unxorer

open Unicorn Transition Packed
open AesImpl (Block)
open PackedMachine hiding State

variable {U : Type} [Unicorn U]

/-- A source of a round key, with the length of the instruction that takes it from there. -/
abbrev KeySource := Source (Fin 16) General × BitVec 64

/-- `pxor` of a key and then a chain of rounds, the last one with another function. -/
def keyed (f g : Block → Block → Block) (d : Fin 16) (first : KeySource) (middle : List KeySource)
    (last : KeySource) : Program (Fin 16) General :=
  (.packed .xor 16 d (.vector d) first.1, first.2) :: (blocks f d middle ++ blocks g d [last])

/-- `pxor`, `aesenc` for each middle round key and `aesenclast`. -/
noncomputable def encryption (d : Fin 16) (first : KeySource) (middle : List KeySource)
    (last : KeySource) : Program (Fin 16) General :=
  keyed Fips197.aesenc Fips197.aesenclast d first middle last

/-- `pxor`, `aesdec` for each middle round key and `aesdeclast`. The keys come in the order in
which they are used. -/
noncomputable def decryption (d : Fin 16) (last : KeySource) (middle : List KeySource)
    (first : KeySource) : Program (Fin 16) General :=
  keyed Fips197.aesdec Fips197.aesdeclast d last middle first

/-- The lower half of a vector register of the engine. -/
def lowHalf (u : U) (d : Fin 16) : Block := (view u).low d

/-- The stretch has replaced the lower half of a vector register and moved RIP. Nothing else in
the run has changed but the found strings. -/
structure Carried (r : RunState U) (d : Fin 16) (result : Block) (length : BitVec 64)
    (s : Counters × RunState U) : Prop where
  engine : view s.2.emulator.engine = ((view r.emulator.engine).load d result).advance length
  others : ∃ u found, s.2 = { r with emulator := { r.emulator with
    engine := u, stringList := found } }

theorem Carried.lowHalf_eq {r : RunState U} {d : Fin 16} {result : Block} {length : BitVec 64}
    {s : Counters × RunState U} (carried : Carried r d result length s) :
    lowHalf s.2.emulator.engine d = result := by
  rw [lowHalf, carried.engine]
  exact (view r.emulator.engine).low_load d result

/-- The sources of the chain hold the round keys in the order in which they are used. -/
structure KeysHeld (v : PackedMachine.State (Fin 16) General) (d : Fin 16) (first : KeySource)
    (middle : List KeySource) (last : KeySource) (k₀ : Block) (keys : List Block) (kₙ : Block) :
    Prop where
  first : HoldsAll v d [first] [k₀]
  middle : HoldsAll v d middle keys
  last : HoldsAll v d [last] [kₙ]

/-- The number of bytes the instructions of a chain take. -/
def keyedLength (first : KeySource) (middle : List KeySource) (last : KeySource) : BitVec 64 :=
  first.2 + (middle.map Prod.snd).sum + last.2

section Chain

variable {f g : Block → Block → Block} {d : Fin 16} {first last : KeySource}
  {middle : List KeySource} {k₀ kₙ : Block} {keys : List Block}

theorem length_keyed : (keyed f g d first middle last).length = middle.length + 2 := by
  simp [keyed, blocks]

/-- The chain adds the first key and folds the rounds over the others. -/
theorem runs_keyed {v : PackedMachine.State (Fin 16) General}
    (held : KeysHeld v d first middle last k₀ keys kₙ) :
    Runs (keyed f g d first middle last) v
      ((v.load d (g (keys.foldl f (Fips197.addRoundKey (v.low d) k₀)) kₙ)).advance
        (keyedLength first middle last)) := by
  obtain ⟨heldFirst, heldMiddle, heldLast⟩ := held
  cases heldFirst with
  | cons here _ =>
    have added : Operation.xor.Computes (v.low d) k₀ (Fips197.addRoundKey (v.low d) k₀) :=
      fun _ => rfl
    have rounds := runs_blocks f heldMiddle (Fips197.addRoundKey (v.low d) k₀) first.2
    have final := runs_blocks g heldLast (keys.foldl f (Fips197.addRoundKey (v.low d) k₀))
      (first.2 + (middle.map Prod.snd).sum)
    rw [List.map_singleton, List.sum_singleton] at final
    exact .cons (.packed (.vector d) here.1 added) (runs_append.mpr ⟨_, rounds, final⟩)

/-- A stretch of a run that carries out the whole chain. -/
theorem carried_of_trace [Host] {r : RunState U} {c : Counters} {past : Past U}
    {s : Counters × RunState U}
    (loaded : Loaded r.emulator.decoded (reg r.emulator.engine .rip)
      (keyed f g d first middle last))
    (held : KeysHeld (view r.emulator.engine) d first middle last k₀ keys kₙ)
    (trace : Trace RunStep (c, r) past s) (line : ∀ p ∈ past, InLine p)
    (all : hooked past = middle.length + 2) :
    Carried r d (g (keys.foldl f (Fips197.addRoundKey (lowHalf r.emulator.engine d) k₀)) kₙ)
      (keyedLength first middle last) s := by
  have whole : hooked past = (keyed f g d first middle last).length := all.trans length_keyed.symm
  have standing := Standing.of_trace loaded (runs_keyed held) trace line whole.le
  exact ⟨standing.done whole, standing.others⟩

end Chain

section Aes

variable {d : Fin 16} {first last : KeySource} {middle : List KeySource} {k₀ kₙ : Block}
  {keys : List Block}

/-- A run of the instructions of an encryption leaves the block that the standard says. -/
theorem encryption_of_trace [Host] {r : RunState U} {c : Counters} {past : Past U}
    {s : Counters × RunState U}
    (loaded : Loaded r.emulator.decoded (reg r.emulator.engine .rip)
      (encryption d first middle last))
    (held : KeysHeld (view r.emulator.engine) d first middle last k₀ keys kₙ)
    (trace : Trace RunStep (c, r) past s) (line : ∀ p ∈ past, InLine p)
    (all : hooked past = middle.length + 2) :
    Carried r d (Fips197.cipher k₀ keys kₙ (lowHalf r.emulator.engine d))
      (keyedLength first middle last) s := by
  rw [Fips197.cipher_eq]
  exact carried_of_trace loaded held trace line all

/-- A run of the instructions of a decryption, with middle round keys that have gone through the
inverse mix, leaves the block that the standard says. Where the register held an encrypted block,
that is the block it was encrypted from. -/
theorem decryption_of_trace [Host] {r : RunState U} {c : Counters} {past : Past U}
    {s : Counters × RunState U}
    (loaded : Loaded r.emulator.decoded (reg r.emulator.engine .rip)
      (decryption d last middle first))
    (held : KeysHeld (view r.emulator.engine) d last middle first kₙ
      (keys.reverse.map Fips197.aesimc) k₀)
    (trace : Trace RunStep (c, r) past s) (line : ∀ p ∈ past, InLine p)
    (all : hooked past = middle.length + 2) :
    Carried r d (Fips197.invCipher k₀ keys kₙ (lowHalf r.emulator.engine d))
      (keyedLength last middle first) s ∧
    ∀ input, lowHalf r.emulator.engine d = Fips197.cipher k₀ keys kₙ input →
      lowHalf s.2.emulator.engine d = input := by
  have carried : Carried r d (Fips197.invCipher k₀ keys kₙ (lowHalf r.emulator.engine d))
      (keyedLength last middle first) s := by
    rw [Fips197.invCipher_eq]
    exact carried_of_trace loaded held trace line all
  refine ⟨carried, fun input encrypted => ?_⟩
  rw [carried.lowHalf_eq, encrypted, Fips197.invCipher_cipher]

end Aes

/-! ### One middle round -/

namespace Example

/-- `pxor xmm0, xmm1`. -/
def whiteningInsn : Insn := ⟨.pxor, 4, ⟨.reg, 64, 0, 0⟩, ⟨.reg, 65, 0, 0⟩, .none⟩

/-- A round of XMM0 with a key in the image. -/
def roundInsn (itype : Itype) : Insn :=
  ⟨itype, 9, ⟨.reg, 64, 0, 0⟩, ⟨.displ, 3, 0x13FFFE030, 0⟩, .none⟩

/-- A round of XMM0 with the key in XMM2. -/
def lastRoundInsn (itype : Itype) : Insn :=
  ⟨itype, 5, ⟨.reg, 64, 0, 0⟩, ⟨.reg, 66, 0, 0⟩, .none⟩

def roundsDecoded (middle last : Itype) : InstructionSnapshot :=
  AList.insert 0x140000000 whiteningInsn
    (AList.insert 0x140000004 (roundInsn middle)
      (AList.insert 0x14000000D (lastRoundInsn last) ∅))

/-- The slice at its first instruction. -/
def roundsSlice (middle last : Itype) : RunState Machine :=
  (startedOf (roundsDecoded middle last) true ⟨0x140000000, 0, 0, 0, true⟩).enterSlice noCounts
    false

/-- The round key in the image. -/
def imageKey : KeySource := (.memory ⟨.rbx, rbx_ne_rip⟩ 0x13FFFE030, 9)

theorem loaded_rounds {middle last : Itype} {f g : Block → Block → Block}
    (round : standardRound middle = some f) (lastRound : standardRound last = some g) :
    Loaded (roundsDecoded middle last) 0x140000000
      (keyed f g 0 (.vector 1, 4) [imageKey] (.vector 2, 5)) := by
  have xmm0 : IsRegister ⟨.reg, 64, 0, 0⟩ 16 0 := ⟨rfl, rfl, rfl, by decide⟩
  have xmm1 : IsRegister ⟨.reg, 65, 0, 0⟩ 16 1 := ⟨rfl, rfl, rfl, by decide⟩
  have xmm2 : IsRegister ⟨.reg, 66, 0, 0⟩ 16 2 := ⟨rfl, rfl, rfl, by decide⟩
  have fetched : (roundsDecoded middle last).lookup 0x140000000 = some whiteningInsn := rfl
  have fetchedRound : (roundsDecoded middle last).lookup 0x140000004 = some (roundInsn middle) :=
    rfl
  have fetchedLast : (roundsDecoded middle last).lookup 0x14000000D = some (lastRoundInsn last) :=
    rfl
  have third := Loaded.cons fetchedLast (.round lastRound xmm0 (.vector xmm2)) .nil
  have key : Denotes (roundInsn middle).op2 16 imageKey.1 := .memory rfl rfl
  have second := Loaded.cons fetchedRound (.round round xmm0 key) third
  exact .cons fetched (.packed rfl xmm0 (.legacy rfl rfl (.vector xmm0) (.vector xmm1))) second

theorem keysHeld_rounds (middle last : Itype) : ∃ k₀ k kₙ,
    KeysHeld (view (roundsSlice middle last).emulator.engine) 0 (.vector 1, 4) [imageKey]
      (.vector 2, 5) k₀ [k] kₙ := by
  have mappings : ∀ j < 16, mapped engine (0x140000030 + BitVec.ofNat 64 j) = true := by
    decide +kernel
  have pointer : (view (roundsSlice middle last).emulator.engine).address
      ⟨.rbx, rbx_ne_rip⟩ 0x13FFFE030 = 0x140000030 := by
    have base : (view (roundsSlice middle last).emulator.engine).general
      ⟨.rbx, rbx_ne_rip⟩ = 0x2000 := rfl
    rw [PackedMachine.State.address, base]
    decide
  have room : (view (roundsSlice middle last).emulator.engine).Present
      ((view (roundsSlice middle last).emulator.engine).address
        ⟨.rbx, rbx_ne_rip⟩ 0x13FFFE030) 16 := by
    rw [pointer]
    exact mappings
  refine ⟨_, _, _, ⟨.cons ⟨.vector 1, ?_⟩ .nil, .cons ⟨.memory _ _ room, ?_⟩ .nil,
    .cons ⟨.vector 2, ?_⟩ .nil⟩⟩
  · exact fun same => absurd (Source.vector.inj same) (by decide)
  · exact fun same => by cases same
  · exact fun same => absurd (Source.vector.inj same) (by decide)

end Example

theorem encryption_of_trace_rounds : ∃ k₀ keys kₙ s,
    Carried (Example.roundsSlice .aesenc .aesenclast) 0 (Fips197.cipher k₀ keys kₙ
      (lowHalf (Example.roundsSlice .aesenc .aesenclast).emulator.engine 0)) 18 s := by
  obtain ⟨k₀, k, kₙ, held⟩ := Example.keysHeld_rounds .aesenc .aesenclast
  have loaded : Loaded (Example.roundsDecoded .aesenc .aesenclast) 0x140000000
      (encryption 0 (.vector 1, 4) [Example.imageKey] (.vector 2, 5)) :=
    Example.loaded_rounds rfl rfl
  obtain ⟨past, s, trace, line, all⟩ := exists_packedTrace Example.noCounts rfl rfl
    loaded (runs_keyed held) 3 (by rw [length_keyed]; exact le_refl 3)
  exact ⟨k₀, [k], kₙ, s, encryption_of_trace loaded held trace line all⟩

/-- Every block is the inverse mix of its mix. -/
theorem aesimc_mixColumns (s : Block) : Fips197.aesimc (Fips197.mixColumns s) = s := by
  rw [← Fips197.aesimc_eq, ← Fips197.mixColumns_eq, AesImpl.aesimc,
    AesImpl.invMixColumns_mixColumns]

theorem decryption_of_trace_rounds : ∃ k₀ keys kₙ input s,
    lowHalf (Example.roundsSlice .aesdec .aesdeclast).emulator.engine 0 =
      Fips197.cipher k₀ keys kₙ input ∧
    Carried (Example.roundsSlice .aesdec .aesdeclast) 0 (Fips197.invCipher k₀ keys kₙ
      (lowHalf (Example.roundsSlice .aesdec .aesdeclast).emulator.engine 0)) 18 s ∧
    lowHalf s.2.emulator.engine 0 = input := by
  obtain ⟨kₙ, k, k₀, held⟩ := Example.keysHeld_rounds .aesdec .aesdeclast
  have loaded : Loaded (Example.roundsDecoded .aesdec .aesdeclast) 0x140000000
      (decryption 0 (.vector 1, 4) [Example.imageKey] (.vector 2, 5)) :=
    Example.loaded_rounds rfl rfl
  have mixed : [Fips197.mixColumns k].reverse.map Fips197.aesimc = [k] :=
    congrArg (fun b => [b]) (aesimc_mixColumns k)
  obtain ⟨past, s, trace, line, all⟩ := exists_packedTrace Example.noCounts rfl rfl
    loaded (runs_keyed held) 3 (by rw [length_keyed]; exact le_refl 3)
  rw [← mixed] at held
  obtain ⟨carried, restored⟩ := decryption_of_trace loaded held trace line all
  -- What the register holds is the encryption of something, as every block is.
  have encrypted := (Fips197.cipher_invCipher k₀ [Fips197.mixColumns k] kₙ
    (lowHalf (Example.roundsSlice .aesdec .aesdeclast).emulator.engine 0)).symm
  exact ⟨k₀, [Fips197.mixColumns k], kₙ, _, s, encrypted, carried, restored _ encrypted⟩

end Unxorer

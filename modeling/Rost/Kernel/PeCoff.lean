import Rost.Acpi.Tables

/-!
# The sections of the kernel image

The kernel is a PE32+ image.  Before it switches to its own page tables it looks up its sections in the headers of the
image, to give their pages the flags they need.
-/

namespace Rost

open Acpi (Readable readU16 readU32 bytesAt)

namespace PeCoff

/-! ### The parser -/

def dosMagic : BitVec 16 := 0x5A4D
def peSignature : BitVec 32 := 0x00004550
def machineAmd64 : BitVec 16 := 0x8664
def pe32PlusMagic : BitVec 16 := 0x020B

structure SectionInfo where
  virtAddr : Word
  size : Word
deriving DecidableEq

structure KernelSections where
  text : Option SectionInfo
  rodata : Option SectionInfo
  data : Option SectionInfo
  bss : Option SectionInfo
deriving DecidableEq

namespace KernelSections

/-- `KernelSections::default()`. -/
def default : KernelSections := ⟨none, none, none, none⟩

end KernelSections

/-- The sections that the kernel looks for. -/
inductive SectionName where
  | text
  | rdata
  | data
  | bss

def SectionName.ascii : SectionName → List Byte
  | .text => [0x2E, 0x74, 0x65, 0x78, 0x74]
  | .rdata => [0x2E, 0x72, 0x64, 0x61, 0x74, 0x61]
  | .data => [0x2E, 0x64, 0x61, 0x74, 0x61]
  | .bss => [0x2E, 0x62, 0x73, 0x73]

/-- The name of a section, of 8 bytes, is `start`, up to a NUL or a `$`. -/
def nameEq (name start : List Byte) : Bool :=
  let n := min start.length 8
  if name.take n ≠ start.take n then false
  else n == 8 || name.getD n 0 == 0 || name.getD n 0 == 0x24

namespace KernelSections

def get (sections : KernelSections) : SectionName → Option SectionInfo
  | .text => sections.text
  | .rdata => sections.rodata
  | .data => sections.data
  | .bss => sections.bss

/-- The branches of the loop on the name of a section. -/
def put (sections : KernelSections) (name : List Byte) (info : SectionInfo) : KernelSections :=
  if nameEq name SectionName.text.ascii then { sections with text := some info }
  else if nameEq name SectionName.rdata.ascii then { sections with rodata := some info }
  else if nameEq name SectionName.data.ascii then { sections with data := some info }
  else if nameEq name SectionName.bss.ascii then { sections with bss := some info }
  else sections

end KernelSections

/-- The loop over the section table, with the address of the next header. -/
def readSections (mem : Readable) (imageBase : Word) : Nat → Nat → KernelSections → Option KernelSections
  | 0, _, sections => some sections
  | n + 1, s, sections => do
    let name ← bytesAt mem s 8
    let vsize ← readU32 mem (s + 8)
    let rva ← readU32 mem (s + 12)
    readSections mem imageBase n (s + 40)
      (if vsize = 0 ∨ rva = 0 then sections
      else sections.put name ⟨imageBase + rva.setWidth 64, vsize.setWidth 64⟩)

/-- The sections of the image at `imageBase`; `none` if memory is read that is not readable. -/
def parseKernelSections (mem : Readable) (imageBase : Word) : Option KernelSections :=
  if imageBase = 0 then some .default
  else do
    let base := imageBase.toNat
    let magic ← readU16 mem base
    if magic ≠ dosMagic then return .default
    let eLfanew ← readU32 mem (base + 0x3C)
    let signature ← readU32 mem (base + eLfanew.toNat)
    if signature ≠ peSignature then return .default
    let machine ← readU16 mem (base + (eLfanew.toNat + 4))
    if machine ≠ machineAmd64 then return .default
    let numSections ← readU16 mem (base + (eLfanew.toNat + 6))
    let optHdrSize ← readU16 mem (base + (eLfanew.toNat + 20))
    if optHdrSize.toNat < 2 then return .default
    let optOff := eLfanew.toNat + 24
    let optMagic ← readU16 mem (base + optOff)
    if optMagic ≠ pe32PlusMagic then return .default
    readSections mem imageBase numSections.toNat (base + (optOff + optHdrSize.toNat)) .default

/-! ### Where the sections lie -/

/-- The sections start at 32-bit offsets into the image and have 32-bit sizes. -/
def KernelSections.In (sections : KernelSections) (imageBase : Word) : Prop :=
  ∀ n s, sections.get n = some s → ∃ rva vsize : BitVec 32, s = ⟨imageBase + rva.setWidth 64, vsize.setWidth 64⟩

theorem KernelSections.in_default (imageBase : Word) : default.In imageBase := by
  intro n s hs
  cases n <;> cases hs

theorem KernelSections.get_put {sections : KernelSections} {name : List Byte} {info s : SectionInfo} {n : SectionName}
    (h : (sections.put name info).get n = some s) : s = info ∨ sections.get n = some s := by
  unfold put at h
  split_ifs at h <;> cases n <;> first | exact Or.inr h | exact Or.inl (Option.some.inj h).symm

theorem readSections_in {mem : Readable} {imageBase : Word} {n s : Nat} {sections out : KernelSections}
    (hin : sections.In imageBase) (h : readSections mem imageBase n s sections = some out) : out.In imageBase := by
  induction n generalizing s sections with
  | zero =>
    cases h
    exact hin
  | succ n ih =>
    unfold readSections at h
    simp only [Option.bind_eq_bind, Option.bind_eq_some_iff] at h
    obtain ⟨name, -, vsize, -, rva, -, hrest⟩ := h
    refine ih ?_ hrest
    split
    · exact hin
    · intro m t ht
      rcases KernelSections.get_put ht with rfl | ht
      · exact ⟨rva, vsize, rfl⟩
      · exact hin m t ht

theorem parseKernelSections_in {mem : Readable} {imageBase : Word} {out : KernelSections}
    (h : parseKernelSections mem imageBase = some out) : out.In imageBase := by
  have hcheck : ∀ {c : Prop} [Decidable c] {x : Option KernelSections}, (x = some out → out.In imageBase) →
      (if c then some .default else x) = some out → out.In imageBase := by
    intro c _ x hx hif
    split at hif
    · cases hif
      exact KernelSections.in_default imageBase
    · exact hx hif
  have hread : ∀ {α : Type} {x : Option α} {f : α → Option KernelSections}, (∀ a, f a = some out → out.In imageBase) →
      x.bind f = some out → out.In imageBase := by
    intro α x f hf hbind
    obtain ⟨a, -, ha⟩ := Option.bind_eq_some_iff.1 hbind
    exact hf a ha
  unfold parseKernelSections at h
  refine hcheck (hread fun magic => hcheck (hread fun eLfanew => hread fun signature => hcheck (hread fun machine => ?_))) h
  refine hcheck (hread fun numSections => hread fun optHdrSize => hcheck (hread fun optMagic => hcheck ?_))
  exact readSections_in (KernelSections.in_default imageBase)

end PeCoff

end Rost

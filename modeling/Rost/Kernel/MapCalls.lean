import Rost.Kernel.Syscall
import Rost.Memory.Mapping

/-!
# The calls that map a page

`SYS_MAP`, `SYS_MAP_SHARE` and `SYS_MAP_CAP` take a physical frame (from the caller, from the bitmap, or from a
capability) and hand it to `map_page_global` on the caller's PML4.  One lemma for each call says how it can end; from
these follows what a call does to the page tables.
-/

namespace Rost

open Memory (Tables Builds OwnedPath Consumes)

namespace Kernel

/-- The three calls. -/
def IsMapCall (r : Request) : Prop := r.sys = .map ∨ r.sys = .mapShare ∨ r.sys = .mapCap

section MapCall

variable {k k' : Kernel} {ret : Ret}

/-- A call gets a frame from the bitmap: its address is valid, and there is room in the quota and in memory. -/
def Supplied (k : Kernel) (vaddr : Word) : Prop :=
  validateUserVaddr vaddr = true ∧ k.sched.checkMemoryQuota k.currentPid = true ∧ k.mem.globalAlloc4k.2 ≠ none

/-- `SYS_MAP` refuses, or finds a frame and maps it, or fails to. -/
theorem sysMap_cases {a0 a1 a2 : Word} (h : k.sysMap a0 a1 a2 = some (k', ret)) :
    (k' = k ∧ (ret = .value einval ∨ ret = .value enomem) ∧ (a1 = 0 → ¬ k.Supplied a0)) ∨
    ∃ phys m₁ m', validateUserVaddr a0 = true ∧ k.sched.checkMemoryQuota k.currentPid = true ∧
      ((a1 ≠ 0 ∧ phys = a1 ∧ m₁ = k.mem) ∨
        (a1 = 0 ∧ ∃ m₀, k.mem.globalAlloc4k = (m₀, some phys) ∧ m₁ = m₀.frameTag phys .userOwned)) ∧
      ((m₁.mapPageGlobal k.cr3 a0 phys (mapFlags a2) = (m', true) ∧
          k' = { k with mem := m', sched := k.sched.useMemoryPage k.currentPid } ∧ ret = .value 0) ∨
        (m₁.mapPageGlobal k.cr3 a0 phys (mapFlags a2) = (m', false) ∧ k' = { k with mem := m' } ∧
          ret = .value enomem)) := by
  unfold sysMap at h
  split at h
  · rename_i hvalid
    cases h
    exact Or.inl ⟨rfl, Or.inl rfl, fun _ hs => by simp [hs.1] at hvalid⟩
  · rename_i hvalid
    split at h
    · rename_i haligned
      cases h
      exact Or.inl ⟨rfl, Or.inl rfl, fun h0 => absurd h0 haligned.1⟩
    · split at h
      · rename_i hquota
        cases h
        exact Or.inl ⟨rfl, Or.inr rfl, fun _ hs => by simp [hs.2.1] at hquota⟩
      · rename_i hquota
        have hvalid : validateUserVaddr a0 = true := by simpa using hvalid
        have hquota : k.sched.checkMemoryQuota k.currentPid = true := by simpa using hquota
        simp only at h
        -- the frame comes from the caller or from the bitmap
        by_cases hgiven : a1 ≠ 0
        · rw [if_pos hgiven] at h
          simp only at h
          refine Or.inr ⟨a1, k.mem, ?_⟩
          split at h
          · rename_i m' hmap
            cases h
            exact ⟨m', hvalid, hquota, Or.inl ⟨hgiven, rfl, rfl⟩, Or.inl ⟨hmap, rfl, rfl⟩⟩
          · rename_i m' hmap
            cases h
            exact ⟨m', hvalid, hquota, Or.inl ⟨hgiven, rfl, rfl⟩, Or.inr ⟨hmap, rfl, rfl⟩⟩
        · rw [if_neg hgiven] at h
          cases halloc : k.mem.globalAlloc4k with
          | mk m₀ r =>
            rw [halloc] at h
            cases r with
            | none =>
              cases h
              rw [Memory.globalAlloc4k_eq_none halloc]
              exact Or.inl ⟨rfl, Or.inr rfl, fun _ hs => hs.2.2 (by rw [halloc])⟩
            | some phys =>
              simp only at h
              refine Or.inr ⟨phys, m₀.frameTag phys .userOwned, ?_⟩
              split at h
              · rename_i m' hmap
                cases h
                exact ⟨m', hvalid, hquota, Or.inr ⟨not_not.1 hgiven, m₀, rfl, rfl⟩, Or.inl ⟨hmap, rfl, rfl⟩⟩
              · rename_i m' hmap
                cases h
                exact ⟨m', hvalid, hquota, Or.inr ⟨not_not.1 hgiven, m₀, rfl, rfl⟩, Or.inr ⟨hmap, rfl, rfl⟩⟩

/-- The capability for a frame that `SYS_MAP_SHARE` hands to its caller. -/
def shareCap (phys : Word) : Capability := ⟨.memory, capR ||| capW ||| capG, u32 (phys >>> 12)⟩

/-- `SYS_MAP_SHARE` refuses, or takes a frame, zeroes it and maps it, or fails to; after that the capability may fail. -/
theorem sysMapShare_cases {a0 a1 : Word} (h : k.sysMapShare a0 a1 = some (k', ret)) :
    (k' = k ∧ (ret = .value einval ∨ ret = .value enomem) ∧ ¬ k.Supplied a0) ∨
    ∃ phys m₀ m', validateUserVaddr a0 = true ∧ k.sched.checkMemoryQuota k.currentPid = true ∧
      k.mem.globalAlloc4k = (m₀, some phys) ∧
      ((((m₀.frameTag phys .userOwned).zeroFrame phys).mapPageGlobal k.cr3 a0 phys (pageFlags true a1) = (m', true) ∧
          (k', ret) = ({ k with mem := m', sched := k.sched.useMemoryPage k.currentPid } : Kernel).capFor (shareCap phys)
            einval) ∨
        (((m₀.frameTag phys .userOwned).zeroFrame phys).mapPageGlobal k.cr3 a0 phys (pageFlags true a1) = (m', false) ∧
          k' = { k with mem := m' } ∧ ret = .value enomem)) := by
  unfold sysMapShare at h
  split at h
  · rename_i hvalid
    cases h
    exact Or.inl ⟨rfl, Or.inl rfl, fun hs => by simp [hs.1] at hvalid⟩
  · rename_i hvalid
    split at h
    · rename_i hquota
      cases h
      exact Or.inl ⟨rfl, Or.inr rfl, fun hs => by simp [hs.2.1] at hquota⟩
    · rename_i hquota
      have hvalid : validateUserVaddr a0 = true := by simpa using hvalid
      have hquota : k.sched.checkMemoryQuota k.currentPid = true := by simpa using hquota
      split at h
      · rename_i m₀ halloc
        cases h
        rw [Memory.globalAlloc4k_eq_none halloc]
        exact Or.inl ⟨rfl, Or.inr rfl, fun hs => hs.2.2 (by rw [halloc])⟩
      · rename_i m₀ phys halloc
        simp only at h
        refine Or.inr ⟨phys, m₀, ?_⟩
        split at h
        · rename_i m' hmap
          cases h
          exact ⟨m', hvalid, hquota, halloc, Or.inr ⟨hmap, rfl, rfl⟩⟩
        · rename_i m' hmap
          exact ⟨m', hvalid, hquota, halloc, Or.inl ⟨hmap, (Option.some.inj h).symm⟩⟩

/-- The frame of a memory capability. -/
def capFrame (c : Capability) : Word := BitVec.ofNat 64 c.objectId <<< 12

/-- `SYS_MAP_CAP` refuses, or maps the frame of a capability that can be read, or fails to. -/
theorem sysMapCap_cases {a0 a1 a2 : Word} (h : k.sysMapCap a0 a1 a2 = some (k', ret)) :
    (k' = k ∧ (ret = .value einval ∨ ret = .value eperm)) ∨
    ∃ c m', validateUserVaddr a0 = true ∧ k.sched.capSlotInfo k.currentPid a1.toNat = some c ∧ c.kind = .memory ∧
      c.rights &&& capR ≠ 0 ∧ ∃ bits,
      ((k.mem.mapPageGlobal k.cr3 a0 (capFrame c) (pageFlags true bits) = (m', true) ∧ k' = { k with mem := m' } ∧
          ret = .value 0) ∨
        (k.mem.mapPageGlobal k.cr3 a0 (capFrame c) (pageFlags true bits) = (m', false) ∧ k' = { k with mem := m' } ∧
          ret = .value einval)) := by
  unfold sysMapCap at h
  split at h
  · cases h
    exact Or.inl ⟨rfl, Or.inl rfl⟩
  · rename_i hvalid
    have hvalid : validateUserVaddr a0 = true := by simpa using hvalid
    split at h
    · cases h
      exact Or.inl ⟨rfl, Or.inr rfl⟩
    · rename_i c hcap
      split at h
      · rename_i hkind
        simp only at h
        refine Or.inr ⟨c, ?_⟩
        split at h
        · rename_i m' hmap
          cases h
          exact ⟨m', hvalid, hcap, hkind.1, hkind.2, _, Or.inl ⟨hmap, rfl, rfl⟩⟩
        · rename_i m' hmap
          cases h
          exact ⟨m', hvalid, hcap, hkind.1, hkind.2, _, Or.inr ⟨hmap, rfl, rfl⟩⟩
      · cases h
        exact Or.inl ⟨rfl, Or.inr rfl⟩

theorem capFor_mem (k : Kernel) (cap : Capability) (full : Word) : (k.capFor cap full).1.mem = k.mem := by
  unfold capFor
  split <;> rfl

/-! ### What a call does to the page tables -/

/-- A page on the path of `virt`. -/
def OnPath (virt : Word) (q : List (Fin 512)) (_ : Word) : Prop := q = pathOf virt

theorem OnPath.length {virt : Word} {q : List (Fin 512)} {e : Word} (h : OnPath virt q e) : q.length = 4 := by
  rw [show q = pathOf virt from h]
  rfl

variable {kern : Word} {tag : Tags}

/-- A frame is handed out and filled. -/
theorem builds_frame {W : List (Fin 512) → Word → Prop} {o : Word} {m m₁ m₂ : Memory} (T : Tables m kern tag)
    {phys : Word} (halloc : m.globalAlloc4k = (m₁, some phys)) (hcons : Consumes m₁ m₂)
    (hram : ∀ f, f ≠ phys → ∀ j, m₂.ram f j = m₁.ram f j) : Builds W kern o m tag m₂ tag := by
  have hcons₁ := Consumes.globalAlloc4k m
  rw [halloc] at hcons₁
  obtain ⟨-, hfresh, hram₁⟩ := T.globalAlloc4k halloc
  refine .of_data T (hcons₁.trans hcons) fun f t hf j => ?_
  rw [hram f ?_ j, hram₁]
  rintro rfl
  rw [hfresh.untagged] at hf
  cases hf

/-- The frame has been found, `map_page_global` runs. -/
private theorem builds_then_map {o virt phys flags : Word} {m m₁ m' : Memory} {ok : Bool}
    (hb : Builds (OnPath virt) kern o m tag m₁ tag) (hroot : tag o = some (o, [])) (hpath : OwnedPath m tag o virt)
    (h : m₁.mapPageGlobal o virt phys flags = (m', ok)) : ∃ tag', Builds (OnPath virt) kern o m tag m' tag' := by
  obtain ⟨tag', hb'⟩ := hb.tables.mapPageGlobal hroot (hpath.builds hb fun _ _ => OnPath.length) h
  exact ⟨tag', hb.trans (hb'.mono fun _ _ hq => hq.1)⟩

/-- On a way of its caller a call builds for the caller only, and writes at most the page of its address. -/
theorem mapCall_builds {r : Request} (hsys : IsMapCall r) (h : k.dispatch r = some (k', ret))
    (T : Tables k.mem kern tag) (hroot : tag k.cr3 = some (k.cr3, [])) (hpath : OwnedPath k.mem tag k.cr3 r.a0) :
    ∃ tag', Builds (OnPath r.a0) kern k.cr3 k.mem tag k'.mem tag' := by
  have hrefused : k' = k → ∃ tag', Builds (OnPath r.a0) kern k.cr3 k.mem tag k'.mem tag' := by
    rintro rfl
    exact ⟨tag, .refl T⟩
  unfold dispatch at h
  rcases hsys with hsys | hsys | hsys
  · rw [hsys] at h
    rcases sysMap_cases h with ⟨hk, -⟩ | ⟨phys, m₁, m', -, -, hframe, hmap⟩
    · exact hrefused hk
    · have hb : Builds (OnPath r.a0) kern k.cr3 k.mem tag m₁ tag := by
        rcases hframe with ⟨-, -, rfl⟩ | ⟨-, m₀, halloc, rfl⟩
        · exact .refl T
        · exact builds_frame T halloc (.frameTag m₀ phys .userOwned) fun f _ j => by rw [Memory.frameTag_ram]
      rcases hmap with ⟨hmap, rfl, -⟩ | ⟨hmap, rfl, -⟩
      · exact builds_then_map hb hroot hpath hmap
      · exact builds_then_map hb hroot hpath hmap
  · rw [hsys] at h
    rcases sysMapShare_cases h with ⟨hk, -⟩ | ⟨phys, m₀, m', -, -, halloc, hmap⟩
    · exact hrefused hk
    · have hb : Builds (OnPath r.a0) kern k.cr3 k.mem tag ((m₀.frameTag phys .userOwned).zeroFrame phys) tag := by
        refine builds_frame T halloc ((Consumes.frameTag m₀ phys .userOwned).trans (.zeroFrame _ phys)) fun f hf j => ?_
        rw [Memory.zeroFrame_ram, if_neg hf, Memory.frameTag_ram]
      rcases hmap with ⟨hmap, hk⟩ | ⟨hmap, rfl, -⟩
      · have hmem : k'.mem = m' := by
          rw [show k' = _ from congrArg Prod.fst hk, capFor_mem]
        rw [hmem]
        exact builds_then_map hb hroot hpath hmap
      · exact builds_then_map hb hroot hpath hmap
  · rw [hsys] at h
    rcases sysMapCap_cases h with ⟨hk, -⟩ | ⟨c, m', -, -, -, -, bits, hmap⟩
    · exact hrefused hk
    · rcases hmap with ⟨hmap, rfl, -⟩ | ⟨hmap, rfl, -⟩
      · exact builds_then_map (.refl T) hroot hpath hmap
      · exact builds_then_map (.refl T) hroot hpath hmap

end MapCall

end Kernel

end Rost

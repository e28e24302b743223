import Rost.Kernel.Loading
import Rost.Kernel.MapCalls
import Rost.Memory.Boot

/-!
# Address spaces

The kernel's PML4 and the PML4s of the processes live in one memory and share tables.  `Spaces` are the states in which
they stand: the kernel boots, address spaces are made by `SYS_CREATE_VAS` and by the loader, memory that holds no page
tables changes freely, and processes map pages.  The calls that map a page check only that its address is a user
address, and user addresses include the identity map of the kernel.  So a mapping disturbs nothing if the kernel does
not cover the address (`Spaces.map_undisturbed`); if it does, the shared tables are changed for all.
-/

namespace Rost

open Lib (Bitmap)
open Lib.TableTree (resolve descend Layout)
open Memory (Tables Builds Booted Owned OwnedPath PageAt Consumes)

namespace Memory

/-! ### What the kernel covers -/

/-- The kernel has something on the way to `virt` that user PML4s share, or a page at `virt` itself: an entry of its
PML4, or of its first PDPT, or of its first page directory; in the first 2 MB, which are not shared, the page. -/
def kernelCovers (m : Memory) (kern virt : Word) : Bool :=
  if pml4Index virt ≠ 0 then decide (m.ram kern (pml4Index virt) &&& ptePresent ≠ 0)
  else if pdptIndex virt ≠ 0 then (m.pageDirectory kern virt).isSome
  else if pdIndex virt ≠ 0 then
    (m.pageDirectory kern virt).any fun pd => decide (m.ram pd (pdIndex virt) &&& ptePresent ≠ 0)
  else (m.translateAddress kern virt).isSome

section Covers

variable {m : Memory} {kern o virt : Word} {tag : Tags}

/-- The kernel's PDPT on the way to `virt`. -/
private theorem Tables.kern_pdpt (T : Tables m kern tag) {g : Word} (hg : tag g = some (kern, [pml4Index virt])) :
    m.ram kern (pml4Index virt) &&& ptePresent ≠ 0 ∧ m.ram kern (pml4Index virt) &&& pteAddrMask = g := by
  obtain ⟨f, hf, hlink⟩ := T.layout.parent (p := []) hg
  rw [T.layout.root hf] at hlink
  obtain ⟨hpresent, -, haddr⟩ := decode_eq_table hlink
  exact ⟨hpresent, haddr⟩

/-- The kernel's page directory on the way to `virt`. -/
private theorem Tables.pageDirectory_of_tag (T : Tables m kern tag) {g : Word}
    (hg : tag g = some (kern, [pml4Index virt, pdptIndex virt])) : m.pageDirectory kern virt = some g := by
  obtain ⟨f, hf, hlink⟩ := T.layout.parent (p := [pml4Index virt]) hg
  obtain ⟨hpresent, haddr⟩ := T.kern_pdpt hf
  obtain ⟨hpresent₂, -, haddr₂⟩ := decode_eq_table hlink
  unfold pageDirectory
  simp only
  rw [if_neg hpresent, haddr, if_neg hpresent₂, haddr₂]

/-- The way to an address that the kernel does not cover belongs to the user. -/
theorem Tables.ownedPath (T : Tables m kern tag) (ho : o ≠ kern) (h : m.kernelCovers kern virt = false) :
    OwnedPath m tag o virt := by
  unfold kernelCovers at h
  refine ⟨T.owned_of_clean ho (by decide) ?_, T.owned_of_clean ho (by simp) ?_, T.owned_of_clean ho (by simp) ?_⟩
  · rintro ⟨-, h4⟩ g hg
    rw [if_pos h4] at h
    rw [T.layout.root hg]
    simpa using h
  · rintro ⟨hp, h3⟩ g hg
    have h4 : pml4Index virt = 0 := by simpa using hp
    rw [if_neg (not_not_intro h4), if_pos h3] at h
    obtain ⟨hpresent, haddr⟩ := T.kern_pdpt hg
    by_contra hne
    unfold pageDirectory at h
    simp only at h
    rw [if_neg hpresent, haddr, if_neg hne] at h
    cases h
  · rintro ⟨hp, h2⟩ g hg
    have h43 : pml4Index virt = 0 ∧ pdptIndex virt = 0 := by simpa using hp
    rw [if_neg (not_not_intro h43.1), if_neg (not_not_intro h43.2), if_pos h2, T.pageDirectory_of_tag hg] at h
    simpa using h

/-- What the kernel does not cover it does not map. -/
theorem translateAddress_of_uncovered (h : m.kernelCovers kern virt = false) : m.translateAddress kern virt = none := by
  have hpd : m.pageDirectory kern virt = none → m.translateAddress kern virt = none := by
    intro hnone
    unfold translateAddress
    rw [hnone]
  unfold kernelCovers at h
  split at h
  · refine hpd ?_
    have habsent : m.ram kern (pml4Index virt) &&& ptePresent = 0 := by simpa using h
    unfold pageDirectory
    simp only
    rw [if_pos habsent]
  · split at h
    · exact hpd (by simpa using h)
    · split at h
      · cases hdir : m.pageDirectory kern virt with
        | none => exact hpd hdir
        | some pd =>
          rw [hdir] at h
          have habsent : m.ram pd (pdIndex virt) &&& ptePresent = 0 := by simpa using h
          unfold translateAddress
          rw [hdir]
          simp only
          rw [if_pos habsent]
      · simpa using h

end Covers

end Memory

/-! ### The states -/

/-- The frame holds a page table that one of the PML4s `roots` reaches. -/
def Memory.IsTable (m : Memory) (roots : List Word) (f : Word) : Prop :=
  ∃ R ∈ roots, ∃ path, descend m.links path 3 R = some f

/-- The memory with the kernel's PML4 `kern` and the PML4s of the processes, in any order of the steps. -/
inductive Spaces (kern : Word) : Memory → List Word → Prop
  | boot {m : Memory} (h : Booted (fun _ => True) kern m) : Spaces kern m []
  /-- Frames are handed out, and memory that holds no page table changes. -/
  | write {m m' : Memory} {users : List Word} (h : Spaces kern m users) (hcons : Consumes m m')
      (htables : ∀ f, m.IsTable (kern :: users) f → ∀ j, m'.ram f j = m.ram f j) : Spaces kern m' users
  | createVas {k k' : Kernel} {users : List Word} {pml4 : Word} (h : Spaces kern k.mem users)
      (hkern : k.kernelPml4 = kern) (hcall : k.sysCreateVas = some (k', .value pml4)) (hok : pml4 ≠ enomem) :
      Spaces kern k'.mem (pml4 :: users)
  | spawn {m m' : Memory} {s s' : Scheduler} {img : Image} {priority pid : Nat} {users : List Word} {pml4 : Word}
      (h : Spaces kern m users) (hcall : Elf.spawnElf m s kern img priority = some (m', s', some pid))
      (hpml4 : s'.getProcessPml4 pid = some pml4) : Spaces kern m' (pml4 :: users)
  | spawnFailed {m m' : Memory} {s s' : Scheduler} {img : Image} {priority : Nat} {users : List Word}
      (h : Spaces kern m users) (hcall : Elf.spawnElf m s kern img priority = some (m', s', none)) :
      Spaces kern m' users
  /-- A process maps a page at an address that the kernel does not cover. -/
  | map {k k' : Kernel} {r : Request} {ret : Ret} {users : List Word} (h : Spaces kern k.mem users)
      (hkern : k.kernelPml4 = kern) (huser : k.cr3 ∈ users) (hsys : Kernel.IsMapCall r)
      (hcov : k.mem.kernelCovers kern r.a0 = false) (hcall : k.dispatch r = some (k', ret)) : Spaces kern k'.mem users

/-- The page tables of the kernel and of the processes stand in a layout. -/
structure Stand (kern : Word) (m : Memory) (users : List Word) (tag : Tags) : Prop where
  tables : Tables m kern tag
  user : ∀ U ∈ users, U ≠ kern ∧ tag U = some (U, [])
  owner : ∀ {f t}, tag f = some t → t.1 = kern ∨ t.1 ∈ users

namespace Stand

variable {kern : Word} {m m' : Memory} {users : List Word} {tag tag' : Tags}

/-- Page tables have been built for one of the processes. -/
theorem builds {W : List (Fin 512) → Word → Prop} {U : Word} (S : Stand kern m users tag) (hU : U ∈ users)
    (hb : Builds W kern U m tag m' tag') : Stand kern m' users tag' := by
  refine ⟨hb.tables, fun V hV => ⟨(S.user V hV).1, hb.grows.keeps (S.user V hV).2⟩, fun hf => ?_⟩
  rcases hb.grows.new hf with hold | hnew
  · exact S.owner hold
  · exact Or.inr (by rw [hnew]; exact hU)

/-- The page tables are as they were. -/
theorem leavesTables (S : Stand kern m users tag) (h : Elf.LeavesTables m tag m') : Stand kern m' users tag :=
  ⟨S.tables.consume h.consumes h.ram, S.user, S.owner⟩

/-- A new address space has been made. -/
theorem newSpace {o : Word} {D : List Word} (S : Stand kern m users tag) (h : Elf.NewSpace kern o m tag m' tag' D) :
    Stand kern m' (o :: users) tag' := by
  refine ⟨h.tables, fun V hV => ?_, fun hf => ?_⟩
  · rcases List.mem_cons.1 hV with rfl | hV
    · exact ⟨h.ne_kern, h.root⟩
    · exact ⟨(S.user V hV).1, h.grows.keeps (S.user V hV).2⟩
  · rcases h.grows.new hf with hold | hnew
    · exact (S.owner hold).imp_right (List.mem_cons_of_mem _)
    · exact Or.inr (by rw [hnew]; exact List.mem_cons_self)

end Stand

/-- The PML4 of a spawned process is the one its address space was built for. -/
private theorem pml4_of_spawn {s s₁ : Scheduler} {o pml4 : Word} {pid priority : Nat} {frames : List Word}
    (hadd : s.addRing3Process o = some (s₁, some pid))
    (hpml4 : ((if 0 < priority then s₁.setPriority pid priority else s₁).registerUserFrames pid frames).getProcessPml4 pid =
      some pml4) : pml4 = o := by
  obtain ⟨id, rsp, hrec⟩ := Scheduler.addRing3Process_record hadd
  obtain ⟨p, hp, hbase⟩ : ∃ p, (if 0 < priority then s₁.setPriority pid priority else s₁).getProcess pid = some p ∧
      p.pageTableBase = o := by
    split
    · unfold Scheduler.setPriority
      rw [Scheduler.getProcess_update, if_pos rfl, hrec]
      exact ⟨_, rfl, rfl⟩
    · exact ⟨_, hrec, rfl⟩
  unfold Scheduler.getProcessPml4 Scheduler.registerUserFrames at hpml4
  rw [Scheduler.getProcess_update, if_pos rfl, hp, Option.map_some, Option.map_some] at hpml4
  obtain ⟨fs, hfs⟩ := Pcb.foldl_addUserFrame_eq frames p
  simp only [hfs] at hpml4
  rw [← Option.some.inj hpml4, ← hbase]

/-- `SYS_CREATE_VAS` makes an address space without pages of its own. -/
theorem newSpace_of_createVas {k k' : Kernel} {tag : Tags} {pml4 : Word} (T : Tables k.mem k.kernelPml4 tag)
    (hcall : k.sysCreateVas = some (k', .value pml4)) (hok : pml4 ≠ enomem) :
    ∃ tag', Elf.NewSpace k.kernelPml4 pml4 k.mem tag k'.mem tag' [] := by
  unfold Kernel.sysCreateVas at hcall
  split at hcall
  · cases hcall
    exact absurd rfl hok
  · rename_i m₁ pml4 halloc
    cases hcall
    obtain ⟨T₀, -⟩ := Elf.newRoot T halloc
    exact Elf.newSpace T halloc (.refl T₀)

/-- In every such state the page tables stand in a layout. -/
theorem Spaces.stand {kern : Word} {m : Memory} {users : List Word} (h : Spaces kern m users) :
    ∃ tag, Stand kern m users tag := by
  induction h with
  | boot h =>
    obtain ⟨tag, T, hk⟩ := h.tables
    exact ⟨tag, T, fun U hU => (List.not_mem_nil hU).elim, fun hf => Or.inl (hk.only hf)⟩
  | write h hcons htables ih =>
    obtain ⟨tag, S⟩ := ih
    refine ⟨tag, S.leavesTables ⟨hcons, fun f t hf j => htables f ?_ j⟩⟩
    refine ⟨t.1, ?_, t.2, S.tables.layout.descend_of_tag hf⟩
    exact List.mem_cons.2 (S.owner hf)
  | createVas h hkern hcall hok ih =>
    obtain ⟨tag, S⟩ := ih
    subst hkern
    obtain ⟨tag', hspace⟩ := newSpace_of_createVas S.tables hcall hok
    exact ⟨tag', S.newSpace hspace⟩
  | spawn h hcall hpml4 ih =>
    obtain ⟨tag, S⟩ := ih
    rcases Elf.spawnElf_cases S.tables hcall with ⟨hnone, -⟩ | ⟨p, o, tag', D, frames, s₁, hpid, hspace, -, hadd, rfl⟩
    · cases hnone
    · cases hpid
      rw [pml4_of_spawn hadd hpml4]
      exact ⟨tag', S.newSpace hspace⟩
  | spawnFailed h hcall ih =>
    obtain ⟨tag, S⟩ := ih
    rcases Elf.spawnElf_cases S.tables hcall with ⟨-, hleaves, -⟩ | ⟨p, o, tag', D, frames, s₁, hpid, -⟩
    · exact ⟨tag, S.leavesTables hleaves⟩
    · cases hpid
  | map h hkern huser hsys hcov hcall ih =>
    obtain ⟨tag, S⟩ := ih
    obtain ⟨hne, hroot⟩ := S.user _ huser
    obtain ⟨tag', hb⟩ := Kernel.mapCall_builds hsys hcall S.tables hroot (S.tables.ownedPath hne hcov)
    exact ⟨tag', S.builds huser hb⟩

/-! ### What a mapping leaves alone -/

/-- Nothing is disturbed on the way from `m` to `m'`: not the translation of the kernel, nor of the other processes, nor
that of `U` where the kernel maps something. -/
structure Undisturbed (kern : Word) (users : List Word) (U : Word) (m m' : Memory) : Prop where
  kernel : ∀ v, m'.translateAddress kern v = m.translateAddress kern v
  others : ∀ V ∈ users, V ≠ U → ∀ v, m'.translateAddress V v = m.translateAddress V v
  shared : ∀ v, m.translateAddress kern v ≠ none → m'.translateAddress U v = m.translateAddress U v

/-- Whether an address is mapped depends on its path only. -/
private theorem translateAddress_eq_none_of_path {m : Memory} {pml4 v w : Word} (hpath : pathOf v = pathOf w)
    (h : m.translateAddress pml4 w = none) : m.translateAddress pml4 v = none := by
  rw [Memory.translateAddress_eq, Option.map_eq_none_iff] at h ⊢
  rw [hpath]
  exact h

/-- In every state a call that maps a page at an address the kernel does not cover disturbs nothing, whatever the frame
and the flags, and whether it succeeds or not. -/
theorem Spaces.map_undisturbed {k k' : Kernel} {users : List Word} {r : Request} {ret : Ret}
    (h : Spaces k.kernelPml4 k.mem users) (huser : k.cr3 ∈ users) (hsys : Kernel.IsMapCall r)
    (hcov : k.mem.kernelCovers k.kernelPml4 r.a0 = false) (hcall : k.dispatch r = some (k', ret)) :
    Undisturbed k.kernelPml4 users k.cr3 k.mem k'.mem := by
  obtain ⟨tag, S⟩ := h.stand
  obtain ⟨hne, hroot⟩ := S.user _ huser
  obtain ⟨tag', hb⟩ := Kernel.mapCall_builds hsys hcall S.tables hroot (S.tables.ownedPath hne hcov)
  have hother : ∀ {V : Word}, tag V = some (V, []) → V ≠ k.cr3 → ∀ v,
      k'.mem.translateAddress V v = k.mem.translateAddress V v := by
    intro V hV hVne v
    rw [Memory.translateAddress_eq, Memory.translateAddress_eq,
      hb.resolves_other S.tables.layout hne hV hVne (by rw [length_pathOf]; rfl)]
  refine ⟨hother S.tables.layout.kern_root hne.symm, fun V hV => hother (S.user V hV).2, fun v hv => ?_⟩
  -- the page that is written is not one of the kernel's
  have hpath : pathOf v ≠ pathOf r.a0 := by
    intro heq
    exact hv (translateAddress_eq_none_of_path heq (Memory.translateAddress_of_uncovered hcov))
  rw [Memory.translateAddress_eq, Memory.translateAddress_eq,
    hb.resolves hroot (by rw [length_pathOf]; rfl) fun q e hq hw => ?_]
  rw [show q = pathOf r.a0 from hw] at hq
  exact hpath (hq.eq_of_length (by rw [List.nil_append, length_pathOf, length_pathOf])).symm

/-! ### A small machine -/

/-- Memory before the kernel builds its page tables. -/
def bareMemory : Memory := ⟨.atOneMb 0 (by decide), Bitmap.empty, fun _ => .free, [], fun _ _ => 0⟩

/-- The kernel, with its PML4 at `0x10000`, maps 4 MB at 0. -/
def lowMapped : Memory × PhysicalAllocator :=
  bareMemory.identityMapRegion ⟨0x100000, 0x400000⟩ 0x10000 0 0x400000 (ptePresent ||| pteWritable)

/-- Then it maps 2 MB at 1 GB. -/
def bothMapped : Memory × PhysicalAllocator :=
  lowMapped.1.identityMapRegion lowMapped.2 0x10000 0x40000000 0x200000 (ptePresent ||| pteWritable)

/-- The rest of the heap. -/
def heapRegion : AllocRegion := ⟨0x103000, 0x2FD000, by decide, by decide, by decide⟩

/-- All but nine frames have been handed out. -/
def machine : Memory :=
  ⟨heapRegion, (List.range' 512 9).foldl Bitmap.set Bitmap.empty, fun _ => .free, [], bothMapped.1.ram⟩

/-- The kernel of the machine. -/
def Kernel.lone : Kernel := { Kernel.small with mem := machine, kernelPml4 := 0x10000 }

/-- One process, with pid 1, on the given PML4. -/
def Kernel.withProcess (k : Kernel) (pml4 : Word) : Kernel :=
  { k with sched := ((Scheduler.new 0).addProcess pml4).elim (Scheduler.new 0) Prod.fst, currentPid := 1 }

theorem Kernel.withProcess_mem (k : Kernel) (pml4 : Word) : (k.withProcess pml4).mem = k.mem := rfl

/-- The process runs on the PML4 that `SYS_CREATE_VAS` has made. -/
def Kernel.hosting : Kernel := ((Kernel.lone.sysCreateVas.map Prod.fst).getD Kernel.lone).withProcess 0x303000

/-- Both regions have been mapped. -/
theorem mapped_both {allowed : Word → Prop} (h : allowed (ptePresent ||| pteWritable)) :
    Memory.Mapped allowed 0x10000 bothMapped.1 bothMapped.2 := by
  have hstart : Memory.BootStart 0x10000 bareMemory ⟨0x100000, 0x400000⟩ :=
    ⟨by unfold IsTableAddr; decide, fun _ => rfl, fun _ => Bitmap.test_empty _, rfl, by decide, by decide, by decide⟩
  exact .region (.region (.start hstart) _ _ _ h) _ _ _ h

/-- Before that, it is a booted kernel. -/
theorem booted_machine {allowed : Word → Prop} (h : allowed (ptePresent ||| pteWritable)) :
    Booted allowed 0x10000 ((bothMapped.1.initGlobalAllocator heapRegion).poolInit ptPoolCap).1 :=
  .init (mapped_both h) (by decide +kernel) (by decide +kernel)

/-- All but `n` of the frames above those of the pool have been handed out. -/
theorem consumes_heap {n : Nat} (hn : n ≤ 253) :
    Consumes ((bothMapped.1.initGlobalAllocator heapRegion).poolInit ptPoolCap).1
        ⟨heapRegion, (List.range' 512 n).foldl Bitmap.set Bitmap.empty, fun _ => .free, [], bothMapped.1.ram⟩ ∧
      ((bothMapped.1.initGlobalAllocator heapRegion).poolInit ptPoolCap).1.ram = bothMapped.1.ram := by
  obtain ⟨hregion, hram, hfree⟩ := (bothMapped.1.initGlobalAllocator heapRegion).poolInit_bitmap ptPoolCap
  generalize ((bothMapped.1.initGlobalAllocator heapRegion).poolInit ptPoolCap).1 = m at hregion hram hfree
  refine ⟨⟨hregion.symm, fun i hi => ?_, List.nil_suffix⟩, hram⟩
  have hmem := (Bitmap.test_foldl_set Bitmap.empty _ i).1 hi
  rw [Bitmap.test_empty, List.mem_range'_1] at hmem
  have hrange : 512 ≤ i ∧ i < 512 + n := by simpa using hmem
  have hsize : heapRegion.size / pageSize = 765 := by decide
  refine hfree (a := 0) (b := 512 + n) (fun j _ hj => ?_) ?_ hrange.2
  · refine Memory.initGlobalAllocator_isFree_of_lt (by omega) ?_
    exact Nat.lt_of_lt_of_le hj (Nat.le_trans (Nat.add_le_add_left hn 512) (by decide))
  · rw [Nat.zero_add, Nat.min_self]
    exact hrange.1

private theorem spaces_machine : Spaces 0x10000 machine [] := by
  obtain ⟨hcons, hram⟩ := consumes_heap (n := 9) (by decide)
  refine .write (.boot (booted_machine trivial)) hcons fun f _ j => ?_
  rw [hram]
  rfl

/-- The kernel of the machine with its process is one of the states. -/
theorem spaces_hosting : Spaces Kernel.hosting.kernelPml4 Kernel.hosting.mem [0x303000] := by
  have hret : Kernel.lone.sysCreateVas.map Prod.snd = some (.value 0x303000) := by decide +kernel
  obtain ⟨⟨k, ret⟩, hcall, rfl⟩ := Option.map_eq_some_iff.1 hret
  have hk : (Kernel.lone.sysCreateVas.map Prod.fst).getD Kernel.lone = k := by
    rw [hcall]
    rfl
  have hkern : Kernel.hosting.kernelPml4 = 0x10000 := by decide +kernel
  rw [hkern]
  unfold Kernel.hosting
  rw [hk, Kernel.withProcess_mem]
  exact .createVas spaces_machine rfl hcall (by decide)

/-- The process maps a page at 2 GB. -/
theorem map_undisturbed_hosting :
    Kernel.hosting.cr3 = 0x303000 ∧ (∀ k' ret, Kernel.hosting.dispatch ⟨.map, 0x80000000, 0, 3, 0, 0⟩ = some (k', ret) →
      Undisturbed Kernel.hosting.kernelPml4 [0x303000] Kernel.hosting.cr3 Kernel.hosting.mem k'.mem) ∧
    ∃ k', Kernel.hosting.dispatch ⟨.map, 0x80000000, 0, 3, 0, 0⟩ = some (k', .value 0) := by
  have hcr3 : Kernel.hosting.cr3 = 0x303000 := by decide +kernel
  have hret : (Kernel.hosting.dispatch ⟨.map, 0x80000000, 0, 3, 0, 0⟩).map Prod.snd = some (.value 0) := by decide +kernel
  refine ⟨hcr3, fun k' ret hcall => ?_, ?_⟩
  · exact Spaces.map_undisturbed spaces_hosting (by rw [hcr3]; exact List.mem_singleton_self _) (Or.inl rfl)
      (by decide +kernel) hcall
  · obtain ⟨⟨k', ret⟩, hcall, hv⟩ := Option.map_eq_some_iff.1 hret
    exact ⟨k', by rw [hcall, show ret = .value 0 from hv]⟩

/-- The process maps a page at 1 GB: the address passes the check, and the kernel's own translation changes. -/
theorem kernel_page_replaced :
    Spaces Kernel.hosting.kernelPml4 Kernel.hosting.mem [0x303000] ∧ Kernel.hosting.cr3 ∈ [(0x303000 : Word)] ∧
    validateUserVaddr 0x40000000 = true ∧
    ∃ k', Kernel.hosting.dispatch ⟨.map, 0x40000000, 0, 3, 0, 0⟩ = some (k', .value 0) ∧
      ¬ Undisturbed Kernel.hosting.kernelPml4 [0x303000] Kernel.hosting.cr3 Kernel.hosting.mem k'.mem := by
  have hcr3 : Kernel.hosting.cr3 = 0x303000 := by decide +kernel
  have hrun : (Kernel.hosting.dispatch ⟨.map, 0x40000000, 0, 3, 0, 0⟩).any (fun out => decide (out.2 = .value 0 ∧
      out.1.mem.translateAddress Kernel.hosting.kernelPml4 0x40000000 ≠
        Kernel.hosting.mem.translateAddress Kernel.hosting.kernelPml4 0x40000000)) = true := by decide +kernel
  obtain ⟨⟨k', ret⟩, hcall, hout⟩ := (Option.any_eq_true _ _).1 hrun
  obtain ⟨hret, hne⟩ := of_decide_eq_true hout
  refine ⟨spaces_hosting, by rw [hcr3]; exact List.mem_singleton_self _, by decide, k', ?_, fun h => hne (h.kernel _)⟩
  rw [hcall, show ret = .value 0 from hret]

end Rost

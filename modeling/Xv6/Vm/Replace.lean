import Xv6.Vm.Stack

/-!
`exec` replaces the memory of a process, or has no effect.

Up to the commit only pages of the new image are written, so that the old one is found
as it was when `exec` gives up. From the commit on nothing can fail.
-/

namespace Xv6.Vm

open List

variable {s s' s₁ : Ram} {own own' own₁ : ℕ → Owner} {c m v tramp sz sp : ℕ} {p p' : Proc}
  {path : List UInt8} {argv : List (List UInt8)}

/-! ### The commit -/

theorem setTrapframe_word_ne {trapframe : ℕ} {i : Fin 512} {x : ℕ} (h : m ≠ trapframe) :
    (s.setTrapframe trapframe i x).word m = s.word m := Function.update_of_ne h ..

theorem setTrapframe_word {trapframe : ℕ} {i j : Fin 512} {x : ℕ} :
    (s.setTrapframe trapframe i x).word trapframe j = if j = i then x else s.word trapframe j := by
  rw [Ram.setTrapframe, setPte_word]
  simp

theorem load_congr {a pa flags : ℕ} (hview : view s' c = view s c)
    (hu : UserPage s c (a / PGSIZE) pa flags) (hw : s'.word pa = s.word pa) :
    s'.load c a = s.load c a := by
  have hu' : UserPage s' c (a / PGSIZE) pa flags := by rwa [UserPage, hview]
  rw [Ram.load, Ram.load, hu.userPa_eq, hu'.userPa_eq, Ram.byte, Ram.byte, hw]

theorem Passed.congr {as : List ℕ} (h : Passed s c sz argv as sp)
    (hload : ∀ a, sp ≤ a → a < sz → s'.load c a = s.load c a) : Passed s' c sz argv as sp := by
  have hsize := h.stacked.size
  refine ⟨h.aligned, h.stacked.congr fun a hlo hhi => hload a (by omega) hhi,
    h.array.congr fun k hk => hload _ (by omega) ?_⟩
  rw [length_flatMap_leBytes, length_append, length_singleton, hsize.1] at hk
  have : (argv.length + 1) * 8 ≤ align16 ((argv.length + 1) * 8) := by
    unfold align16
    omega
  omega

namespace Stack

variable (h : Stack s c sz argv sp)

include h

theorem div_eq {a : ℕ} (hlo : sz - USERSTACK * PGSIZE ≤ a) (hhi : a < sz) :
    a / PGSIZE = sz / PGSIZE - 1 := by
  have h₁ := h.mod
  have h₂ := h.room
  norm_num at h₁ h₂ hlo hhi ⊢
  omega

theorem congr (hview : view s' c = view s c)
    (hw : ∀ pa flags, UserPage s c (sz / PGSIZE - 1) pa flags → s'.word pa = s.word pa) :
    Stack s' c sz argv sp := by
  obtain ⟨pa, hpa⟩ := h.page
  have hu : UserPage s c (sz / PGSIZE - 1) pa _ := ⟨hpa, by decide⟩
  refine ⟨h.mod, h.le, h.room, hview ▸ h.page, hview ▸ h.guard, h.base, ?_⟩
  obtain ⟨as, hpassed⟩ := h.passed
  have hbase := h.base
  refine ⟨as, hpassed.congr fun a hlo hhi => ?_⟩
  rw [← h.div_eq (hbase.trans hlo) hhi] at hu
  exact load_congr hview hu (hw pa _ ⟨hpa, by decide⟩)

end Stack

structure Executed (s' : Ram) (own' : ℕ → Owner) (tramp : ℕ) (path : List UInt8)
    (argv : List (List UInt8)) (p p' : Proc) : Prop where
  space : AddressSpace s' own' tramp p'
  trapframe : p'.trapframe = p.trapframe
  name : p'.name = procName path
  sp : s'.word p.trapframe SP = s'.word p.trapframe A1
  stack : Stack s' p'.pagetable p'.sz argv (s'.word p.trapframe A1)

theorem commit_wp {E : Panic → Prop} {own₀ : ℕ → Owner} {s₀ : Ram} {x : ℕ}
    (hp : AddressSpace s₀ own₀ tramp p) (h : Image s₀ s own₀ own tramp p.trapframe c sz)
    (hstack : Stack s c sz argv sp) :
    wp E (procFreepagetable p.pagetable p.sz) (fun _ s' => ∃ own',
      Executed s' own' tramp path argv p { p with
        pagetable := c
        sz := sz
        name := procName path })
      (((s.setTrapframe p.trapframe A1 sp).setTrapframe p.trapframe EPC x).setTrapframe
        p.trapframe SP sp) := by
  generalize ht : ((s.setTrapframe p.trapframe A1 sp).setTrapframe p.trapframe EPC x).setTrapframe
    p.trapframe SP sp = t
  have hA1 : t.word p.trapframe A1 = sp := by grind [setTrapframe_word]
  have hSP : t.word p.trapframe SP = sp := by
    rw [← ht, setTrapframe_word]
    rfl
  have hword : ∀ m, m ≠ p.trapframe → t.word m = s.word m := fun m hm => by
    rw [← ht, setTrapframe_word_ne hm, setTrapframe_word_ne hm, setTrapframe_word_ne hm]
  have hfree : t.freelist = s.freelist := by rw [← ht]; rfl
  have hkend : t.kend = s.kend := by rw [← ht]; rfl
  obtain ⟨hold, hne⟩ := h.fresh.frame hp
  obtain ⟨k, hk⟩ := hold.own_trapframe
  -- neither table and no page of the image is the trapframe
  have hown : ∀ m o, own m = o → o ≠ .other k → t.word m = s.word m := by grind
  obtain ⟨hold', -⟩ := hold.store (fun m hm => hown m _ hm (by rintro ⟨⟩)) hfree hkend
  obtain ⟨hnew, hview⟩ :=
    (h.space (procName path)).store (fun m hm => hown m _ hm (by rintro ⟨⟩)) hfree hkend
  have hstack' : Stack t c sz argv sp := hstack.congr hview fun pa flags hu =>
    hown pa _ (h.own_user hu) (by rintro ⟨⟩)
  refine (procFreepagetable_wp hold').mono ?_
  rintro - s' ⟨own', hg⟩
  have hframe := hnew.mem.space.frame hg.touches hne.symm
  have htf := hg.touches.pages.cell _ (by rw [hk]; exact id)
  refine ⟨own', hnew.frame hg.touches hne.symm hg.heap hg.rooted, rfl, rfl, ?_, ?_⟩
  · rw [htf, hA1, hSP]
  · rw [htf, hA1]
    refine hstack'.congr hframe.2 fun pa flags hu => ?_
    have hu' : UserPage s c (sz / PGSIZE - 1) pa flags := ⟨hview ▸ hu.1, hu.2⟩
    exact (hg.touches.data (h.own_user hu') fun heq => absurd heq hne.symm).2

/-! ### `exec` -/

/-- `exec` either has no effect or succeeds. The one other way to end is the
store behind the array `ustack`. -/
theorem exec_wp (file : Option (List UInt8)) (path : List UInt8) (argv : List (List UInt8))
    (hp : AddressSpace s own tramp p) (htr : Trampoline own tramp) :
    wp (fun e => e = .ustack ∧ argv.length = MAXARG) (exec tramp file path argv p) (fun x s' =>
      x = (-1, p) ∧ Restored s s' own ∨
      x.1 = argv.length ∧ ∃ own', Executed s' own' tramp path argv p x.2) s := by
  have hheap := hp.mem.heap
  have hrooted := hp.mem.rooted
  obtain ⟨k, hk⟩ := hp.own_trapframe
  cases file with
  | none => exact .inl ⟨rfl, .refl hheap⟩
  | some file =>
    refine wp.ite (fun _ => .inl ⟨rfl, .refl hheap⟩) fun _ => ?_
    refine wp.ite (fun _ => .inl ⟨rfl, .refl hheap⟩) fun _ => ?_
    refine wp.bind (procPagetable_wp hheap hrooted htr hk) ?_
    rintro x s₁ (⟨rfl, hrest⟩ | ⟨c, own₁, rfl, hfresh, hspace⟩)
    · exact .inl ⟨rfl, hrest⟩
    have hu : AllUser s₁ c (npages 0) := fun v hv => absurd hv (Nat.not_lt_zero v)
    refine wp.bind (loadLoop_wp ⟨hfresh, hspace⟩ hu) ?_
    rintro ⟨loaded, sz⟩ s₂ ⟨own₂, h₂⟩
    refine wp.ite (fun _ => ?_) fun _ => ?_
    · exact wp.bind (h₂.free hrooted) fun _ s' hs' => .inl ⟨rfl, hs'⟩
    refine wp.bind (makeStack_wp h₂) ?_
    rintro ⟨- | sp, sz⟩ s₃ ⟨⟨own₃, h₃⟩, hstack⟩
    · exact wp.bind (h₃.free hrooted) fun _ s' hs' => .inl ⟨rfl, hs'⟩
    rw [wp_bind, wp_modify, wp_bind, wp_modify, wp_bind, wp_modify]
    exact wp.bind (commit_wp hp h₃ (hstack sp rfl)) fun _ s' hs' => .inr ⟨rfl, hs'⟩

theorem AddressSpace.not_free {b : ℕ × ℕ} (h : AddressSpace s own tramp p)
    (hb : view s p.pagetable v = some b) : own b.1 ≠ .free := by
  by_cases hv : v < UTOP
  · rw [h.mem.space.user v b hb hv]
    nofun
  · intro hfree
    have := h.top (r := p.pagetable) (V := ∅) hb (not_lt.mp hv)
    rw [hfree] at this
    exact this trivial

/-! ### A program -/

def tinyElf : List UInt8 :=
  leBytes 4 ELF_MAGIC ++ leBytes 20 0 ++ leBytes 8 0 ++ leBytes 8 64 ++ leBytes 16 0 ++
    leBytes 2 1 ++ leBytes 6 0 ++
  (leBytes 4 ELF_PROG_LOAD ++ leBytes 4 5 ++ leBytes 8 120 ++ leBytes 8 0 ++ leBytes 8 0 ++
    leBytes 8 4 ++ leBytes 8 4 ++ leBytes 8 0) ++
  leBytes 4 0x13

def execNew (file : List UInt8) (argv : List (List UInt8)) : M ℤ := do
  match ← procPagetable 0x80000000 0x80001000 with
  | none => pure (-2)
  | some c => pure (← exec 0x80000000 (some file) [] argv ⟨c, 0, 0x80001000, []⟩).1

theorem execNew_run {file : List UInt8} {r : ℤ} (hr : r ≠ -2)
    (h : returns (execNew file argv) (fun x _ => decide (x = r)) bootRam = true) :
    ∃ s own p p' s', AddressSpace s own 0x80000000 p ∧ Trampoline own 0x80000000 ∧
      (exec 0x80000000 (some file) [] argv p).run s = .ok ((r, p'), s') := by
  obtain ⟨x, t, hrun, hx⟩ := exists_of_returns h
  have hxr : x = r := of_decide_eq_true hx
  obtain ⟨c, s, hc, hrest⟩ := exists_of_run_bind hrun
  cases c with
  | none =>
    cases hrest
    exact absurd hxr.symm hr
  | some c =>
    obtain ⟨own, hspace⟩ := bootRam_space hc
    obtain ⟨⟨y, p'⟩, s₁, hy, hpure⟩ := exists_of_run_bind hrest
    cases hpure
    subst hxr
    exact ⟨s, own, _, p', _, hspace, ⟨hspace.own_trampoline, by decide, by decide⟩, hy⟩

/-! ### Failure and success -/

/-- A failed `exec` has no effect: the process, its page table, all its memory and its
trapframe are as before, and the same pages are free. -/
theorem exec_failed_no_effect (hp : AddressSpace s own tramp p) (htr : Trampoline own tramp)
    (file : Option (List UInt8)) (path : List UInt8) (argv : List (List UInt8))
    (hrun : (exec tramp file path argv p).run s = .ok ((-1, p'), s')) :
    p' = p ∧ view s' p.pagetable = view s p.pagetable ∧
      (∀ m, IsTable s p.pagetable m → s'.word m = s.word m) ∧
      (∀ v pa flags, view s p.pagetable v = some (pa, flags) → s'.word pa = s.word pa) ∧
      s'.word p.trapframe = s.word p.trapframe ∧ ∀ m, m ∈ s'.freelist ↔ m ∈ s.freelist := by
  obtain ⟨hx, hrest⟩ | ⟨hneg, -⟩ := (exec_wp file path argv hp htr).ok hrun
  · obtain rfl : p' = p := congrArg Prod.snd hx
    have htable : ∀ m, IsTable s p'.pagetable m → s'.word m = s.word m := by
      grind [hrest.word, hp.mem.space.table_iff]
    refine ⟨rfl, Agree.view_eq ⟨htable⟩, htable, fun v pa flags hb =>
      hrest.word pa (hp.not_free hb), hrest.word _ (hp.not_free hp.trapframe), fun m => ?_⟩
    rw [← hrest.heap.free_iff, hp.mem.heap.free_iff]
  · omega

/-- The segment of the file is cut off. -/
theorem exec_failed_no_effect_truncated : ∃ s own p s', AddressSpace s own 0x80000000 p ∧
    (exec 0x80000000 (some (tinyElf.take 122)) [] [] p).run s = .ok ((-1, p), s') ∧
      ∀ m, m ∈ s'.freelist ↔ m ∈ s.freelist := by
  obtain ⟨s, own, p, p', s', hp, htr, hrun⟩ := @execNew_run [] (tinyElf.take 122) (-1) (by decide)
    (by decide +kernel)
  obtain ⟨rfl, -, -, -, -, hfree⟩ := exec_failed_no_effect hp htr _ _ _ hrun
  exact ⟨s, own, p', s', hp, hrun, hfree⟩

theorem lt_npages_iff (h : sz ≤ UTOP * PGSIZE) : v < npages sz ↔ v * PGSIZE < sz := by
  rw [npages_eq h]
  simp only [PGSIZE]
  omega

theorem AddressSpace.mapped_iff (h : AddressSpace s own tramp p) (v : ℕ) :
    view s p.pagetable v ≠ none ↔
      v * PGSIZE < p.sz ∨ v = TRAPFRAME / PGSIZE ∨ v = TRAMPOLINE / PGSIZE := by
  by_cases hv : v < UTOP
  · rw [h.sized v hv, lt_npages_iff h.sz_le]
    norm_num at hv ⊢
    omega
  · grind [top_cases, h.sz_le, h.trapframe, h.trampoline]

/-- `exec` returns whatever the file contains: no panic is reached, and on success exactly the
pages of `[0, sz)`, the trampoline and the trapframe are mapped. Only for as many
arguments as `ustack` has entries the 0 at the end of it is stored behind it. -/
theorem exec_never_panics (hp : AddressSpace s own tramp p) (htr : Trampoline own tramp)
    (file : Option (List UInt8)) (path : List UInt8) (argv : List (List UInt8)) :
    (∃ r p' s', (exec tramp file path argv p).run s = .ok ((r, p'), s') ∧
      (r = -1 ∨ r = argv.length ∧ (∃ own', AddressSpace s' own' tramp p') ∧
        ∀ v, view s' p'.pagetable v ≠ none ↔
          v * PGSIZE < p'.sz ∨ v = TRAPFRAME / PGSIZE ∨ v = TRAMPOLINE / PGSIZE)) ∨
      argv.length = MAXARG ∧ (exec tramp file path argv p).run s = .error .ustack := by
  have hwp := exec_wp file path argv hp htr
  cases hrun : (exec tramp file path argv p).run s with
  | error e => grind [hwp.error]
  | ok x =>
    obtain ⟨⟨r, p'⟩, s'⟩ := x
    refine .inl ⟨r, p', s', rfl, ?_⟩
    obtain ⟨hx, -⟩ | ⟨hr, own', hdone⟩ := hwp.ok hrun
    · exact .inl (congrArg Prod.fst hx)
    · exact .inr ⟨hr, ⟨own', hdone.space⟩, hdone.space.mapped_iff⟩

theorem exec_never_panics_tiny : ∃ s own p p' s', AddressSpace s own 0x80000000 p ∧
    (exec 0x80000000 (some tinyElf) [] [] p).run s = .ok ((0, p'), s') ∧
      ∀ v, view s' p'.pagetable v ≠ none ↔
        v * PGSIZE < p'.sz ∨ v = TRAPFRAME / PGSIZE ∨ v = TRAMPOLINE / PGSIZE := by
  obtain ⟨s, own, p, p', s', hp, htr, hrun⟩ := @execNew_run [] tinyElf 0 (by decide)
    (by decide +kernel)
  refine ⟨s, own, p, p', s', hp, hrun, ?_⟩
  obtain ⟨r, q, t, hrun', hres⟩ | ⟨hlen, -⟩ := exec_never_panics hp htr (some tinyElf) [] []
  · grind
  · cases hlen

/-! ### The arguments in the new image -/

def Ram.loadWord (s : Ram) (root a : ℕ) : ℕ :=
  leNat ((range 8).map fun k => s.load root (a + k))

theorem Holds.append {a : ℕ} {bs cs : List UInt8} (h : Holds s c a (bs ++ cs)) :
    Holds s c a bs ∧ Holds s c (a + bs.length) cs := by
  constructor
  · grind [Holds]
  · intro k hk
    rw [Nat.add_assoc, h _ (by rw [length_append]; omega),
      getD_append_right _ _ _ _ (Nat.le_add_right ..), Nat.add_sub_cancel_left]

theorem Holds.word {a i : ℕ} {xs : List ℕ} (h : Holds s c a (xs.flatMap (leBytes 8)))
    (hi : i < xs.length) : s.loadWord c (a + 8 * i) = xs.getD i 0 % 2 ^ 64 := by
  induction xs generalizing a i with
  | nil => exact absurd hi (Nat.not_lt_zero i)
  | cons x xs ih =>
    obtain ⟨hhead, htail⟩ := h.append
    rw [length_leBytes] at htail
    cases i with
    | zero =>
      have hbytes := eq_map_range fun k hk => (hhead k hk).symm
      rw [length_leBytes] at hbytes
      rw [Nat.mul_zero, Nat.add_zero, Ram.loadWord, ← hbytes, leNat_leBytes]
      rfl
    | succ i => grind

/-- The user finds the arguments at `sp`, in the page at the end of its memory. -/
structure Arguments (s : Ram) (c sz sp : ℕ) (argv : List (List UInt8)) (ptr : ℕ → ℕ) : Prop where
  aligned : sp % 16 = 0
  room : (USERSTACK + 1) * PGSIZE ≤ sz
  base : sz - USERSTACK * PGSIZE ≤ sp
  le : sp ≤ sz
  pointer : ∀ i < argv.length, s.loadWord c (sp + 8 * i) = ptr i
  null : s.loadWord c (sp + 8 * argv.length) = 0
  string : ∀ i < argv.length, Holds s c (ptr i) (argv.getD i [] ++ [0])
  inside : ∀ i < argv.length, sp + 8 * (argv.length + 1) ≤ ptr i ∧
    ptr i + (argv.getD i []).length + 1 ≤ sz
  apart : ∀ i j, i < j → j < argv.length → ptr j + (argv.getD j []).length + 1 ≤ ptr i
  stack : ∀ a, sz - USERSTACK * PGSIZE ≤ a → a < sz → MayWrite s c a
  guard : ∀ a, sz - (USERSTACK + 1) * PGSIZE ≤ a → a < sz - USERSTACK * PGSIZE → ¬MayRead s c a

theorem Stack.arguments (h : Stack s c sz argv sp) :
    (∃ ptr, Arguments s c sz sp argv ptr) ∧ stackNeed argv ≤ USERSTACK * PGSIZE := by
  obtain ⟨as, hpassed⟩ := h.passed
  obtain ⟨hlen, hsum⟩ := hpassed.stacked.size
  have hbase := h.base
  have hroom := h.room
  have hle := h.le
  have halign : 8 * (argv.length + 1) ≤ align16 ((argv.length + 1) * 8) := by
    unfold align16
    omega
  have hword : ∀ i ≤ argv.length, s.loadWord c (sp + 8 * i) = (as ++ [0]).getD i 0 % 2 ^ 64 :=
    fun i hi => hpassed.array.word (by rw [length_append, length_singleton]; omega)
  refine ⟨⟨fun i => as.getD i 0, hpassed.aligned, hroom, hbase, by omega, fun i hi => ?_, ?_,
    fun i hi => (hpassed.stacked.holds hi).1, fun i hi => ?_, fun i j hij hj =>
    hpassed.stacked.below hij hj, fun a hlo hhi => ?_, fun a hlo hhi => ?_⟩, ?_⟩
  · have hin := (hpassed.stacked.holds hi).2.2
    have hlt : sz < 2 ^ 64 := by
      norm_num at hle ⊢
      omega
    rw [hword i hi.le, getD_append _ _ _ _ (by omega)]
    exact Nat.mod_eq_of_lt (by omega)
  · grind
  · obtain ⟨-, hlo, hhi⟩ := hpassed.stacked.holds hi
    exact ⟨by omega, hhi⟩
  · grind [MayWrite, h.page, h.div_eq]
  · rintro ⟨-, pa, flags, hv, hu⟩
    obtain ⟨pa', flags', hguard, hnone⟩ := h.guard
    have hdiv : a / PGSIZE = sz / PGSIZE - 2 := by grind [h.mod]
    rw [hdiv, hguard] at hv
    cases hv
    exact hu hnone
  · unfold stackNeed
    omega

/-- `exec` passes the arguments. When it succeeds, `a1` is the stack pointer, and the user
finds there the addresses of its arguments, followed by 0. It fails when the
arguments do not fit. -/
theorem exec_passes_arguments (hp : AddressSpace s own tramp p) (htr : Trampoline own tramp)
    (file : Option (List UInt8)) (path : List UInt8) (argv : List (List UInt8))
    (hargc : argv.length < MAXARG) :
    ∃ r p' s', (exec tramp file path argv p).run s = .ok ((r, p'), s') ∧
      (r = -1 ∨ r = argv.length ∧ s'.word p'.trapframe SP = s'.word p'.trapframe A1 ∧
        ∃ ptr, Arguments s' p'.pagetable p'.sz (s'.word p'.trapframe A1) argv ptr) ∧
      (USERSTACK * PGSIZE < stackNeed argv → r = -1) := by
  have hwp := exec_wp file path argv hp htr
  obtain ⟨⟨r, p'⟩, s', hrun, hres⟩ := hwp.returned fun e he => absurd he.2 (Nat.ne_of_lt hargc)
  refine ⟨r, p', s', hrun, ?_⟩
  obtain ⟨hx, -⟩ | ⟨hr, own', hdone⟩ := hres
  · have hr : r = -1 := congrArg Prod.fst hx
    exact ⟨.inl hr, fun _ => hr⟩
  · obtain ⟨hargs, hneed⟩ := hdone.stack.arguments
    rw [hdone.trapframe]
    exact ⟨.inr ⟨hr, hdone.sp, hargs⟩, fun hlt => absurd hneed (by omega)⟩

theorem exec_passes_arguments_hi : ∃ s own p p' s', AddressSpace s own 0x80000000 p ∧
    (exec 0x80000000 (some tinyElf) [] [[104, 105]] p).run s = .ok ((1, p'), s') ∧
      ∃ ptr, Arguments s' p'.pagetable p'.sz (s'.word p'.trapframe A1) [[104, 105]] ptr := by
  obtain ⟨s, own, p, p', s', hp, htr, hrun⟩ := @execNew_run [[104, 105]] tinyElf 1 (by decide)
    (by decide +kernel)
  obtain ⟨r, q, t, hrun', hres, -⟩ :=
    exec_passes_arguments hp htr (some tinyElf) [] [[104, 105]] (by decide)
  cases hrun.symm.trans hrun'
  obtain hneg | ⟨-, -, hargs⟩ := hres
  · cases hneg
  · exact ⟨s, own, p, p', s', hp, hrun, hargs⟩

end Xv6.Vm

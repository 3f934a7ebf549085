import Xv6.Vm.Exec

/-!
The image of a program while `exec` builds it.

It is an address space of a page table that is new (`Image`), so that freeing it gives
back exactly what was taken (`Image.free`). The headers of the executable may say
anything. What keeps the loader within the image is that `uvmalloc` has returned a size
not below the end of the segment, and that an image is not larger than memory.
-/

namespace Xv6.Vm

variable {s s' s₁ : Ram} {own own' own₁ : ℕ → Owner} {r c m v tramp trapframe sz : ℕ} {V : Set ℕ}
  {E : Panic → Prop} {p : Proc}

/-! ### Stores -/

theorem Space.store (hs : Space s own r) (hw : ∀ m, own m = .table r → s'.word m = s.word m) :
    Space s' own r ∧ view s' r = view s r := by
  have hagree : Agree s s' r := ⟨fun t ht => hw t ((hs.table_iff t).mpr ht)⟩
  exact ⟨hs.of_agree hagree (fun _ => Iff.rfl) fun _ _ => Iff.rfl, hagree.view_eq⟩

theorem AddressSpace.store (h : AddressSpace s own tramp p)
    (hw : ∀ m, own m = .table p.pagetable → s'.word m = s.word m)
    (hfree : s'.freelist = s.freelist) (hkend : s'.kend = s.kend) :
    AddressSpace s' own tramp p ∧ view s' p.pagetable = view s p.pagetable := by
  obtain ⟨hspace, hview⟩ := h.mem.space.store hw
  refine ⟨⟨⟨h.mem.heap.of_eq hfree hkend, h.mem.rooted, hspace⟩, h.sz_le, ?_, ?_, ?_,
    h.own_trapframe, h.own_trampoline⟩, hview⟩
  · rw [Sized, hview]
    exact h.sized
  · rw [hview]
    exact h.trapframe
  · rw [hview]
    exact h.trampoline

/-! ### The image -/

/-- The page table at `c` is new since `s`, and is an address space of `sz` bytes. -/
structure Image (s s' : Ram) (own own' : ℕ → Owner) (tramp trapframe c sz : ℕ) : Prop where
  fresh : Fresh s s' own own' c
  space : ∀ name, AddressSpace s' own' tramp ⟨c, sz, trapframe, name⟩

namespace Image

variable (h : Image s s₁ own own₁ tramp trapframe c sz)

include h

theorem store (hw : ∀ m, (∀ v, own₁ m ≠ .data c v) → s'.word m = s₁.word m)
    (hfree : s'.freelist = s₁.freelist) (hkend : s'.kend = s₁.kend) :
    Image s s' own own₁ tramp trapframe c sz ∧ view s' c = view s₁ c := by
  have htable : ∀ m, own₁ m = .table c → s'.word m = s₁.word m := fun m hm =>
    hw m fun v => by rw [hm]; nofun
  have hspace := fun name => (h.space name).store htable hfree hkend
  have htouch : Touches c Set.univ s₁ s' own₁ own₁ := by
    refine ⟨.store fun m hm => hw m fun v hv => hm ?_, hkend⟩
    rw [hv]
    exact ⟨rfl, trivial⟩
  exact ⟨⟨h.fresh.of_touches (hspace []).1.mem htouch, fun name => (hspace name).1⟩, (hspace []).2⟩

theorem free (hr : Rooted own) :
    wp E (procFreepagetable c sz) (fun _ s' => Restored s s' own) s₁ := by
  refine (procFreepagetable_wp (h.space [])).mono ?_
  rintro - s' ⟨own', hg⟩
  exact ((hg.of_touches h.fresh.touches).restored hr h.fresh.free).2

theorem sz_le : sz ≤ UTOP * PGSIZE := (h.space []).sz_le

theorem sized : Sized s₁ c (npages sz) := (h.space []).sized

theorem pages_le : npages sz ≤ PHYSTOP / PGSIZE :=
  h.fresh.mem.pages_le (npages_le h.sz_le) fun v hv =>
    (h.sized v (hv.trans_le (npages_le h.sz_le))).mpr hv

theorem sz_le_PHYSTOP : sz ≤ PHYSTOP := by
  have hle := h.sz_le
  have hpages := h.pages_le
  rw [npages_eq hle] at hpages
  norm_num at hpages ⊢
  omega

theorem resize {sz' : ℕ} (hm : Mem s' own' c) (ht : Touches c V s₁ s' own₁ own')
    (hle : sz' ≤ UTOP * PGSIZE) (hsized : Sized s' c (npages sz'))
    (hview : ∀ v, UTOP ≤ v → view s' c v = view s₁ c v) :
    Image s s' own own' tramp trapframe c sz' :=
  ⟨h.fresh.of_touches hm ht, fun name => (h.space name).resize hm ht hle hsized hview⟩

theorem alloc {newsz xperm : ℕ} (hx : PTE_R ||| PTE_U ||| xperm < 2 ^ 10) :
    wp E (uvmalloc c sz newsz xperm) (fun x s' =>
      x = 0 ∧ (∃ own', Image s s' own own' tramp trapframe c sz) ∨
      x ≠ 0 ∧ x = max sz newsz ∧ (∃ own', Image s s' own own' tramp trapframe c x) ∧
        (∀ v < npages sz, view s' c v = view s₁ c v) ∧
        ∀ v, npages sz ≤ v → v < npages x → ∃ pa,
          view s' c v = some (pa, PTE_R ||| PTE_U ||| xperm ||| PTE_V)) s₁ := by
  have hold := h.sized
  refine (uvmalloc_wp h.fresh.mem hold h.sz_le hx).mono ?_
  rintro x s' (⟨hlt, rfl, rfl⟩ | ⟨hle, rfl, hnew, own', hg⟩ | ⟨hle, rfl, own', hm', ht, hview⟩)
  · grind
  · have hmono := npages_mono hnew hle
    have himage := h.resize hg.mem hg.touches hnew (hg.sized hold hmono) fun v hv =>
        hg.same v (.inr ((npages_le hnew).trans hv))
    by_cases h0 : x = 0
    · obtain rfl : x = sz := by omega
      exact .inl ⟨h0, own', himage⟩
    · grind [hg.same, hg.fresh]
  · refine .inl ⟨rfl, own', h.resize hm' ht h.sz_le ?_ fun v _ => by rw [hview]⟩
    rw [Sized, hview]
    exact hold

theorem own_user {pa flags : ℕ} (hu : UserPage s₁ c v pa flags) : own₁ pa = .data c v := by
  have hspace := h.fresh.mem.space
  by_cases hv : v < UTOP
  · exact hspace.user v _ hu.1 hv
  · exact absurd (hspace.top v _ hu.1 (not_lt.mp hv)) hu.2

theorem ne_zero {pa flags : ℕ} (hu : UserPage s₁ c v pa flags) : pa ≠ 0 :=
  h.fresh.mem.heap.ne_zero (by rw [h.own_user hu]; nofun)

end Image

/-! ### `loadseg` -/

def AllUser (s : Ram) (r n : ℕ) : Prop := ∀ v < n, ∃ pa flags, UserPage s r v pa flags

theorem AllUser.of_view {n : ℕ} (h : AllUser s r n) (hview : view s' r = view s r) :
    AllUser s' r n := by
  intro v hv
  obtain ⟨pa, flags, hb, hu⟩ := h v hv
  exact ⟨pa, flags, by rw [hview, hb], hu⟩

theorem lt_npages {a : ℕ} (hsz : sz ≤ UTOP * PGSIZE) (ha : a < sz) : a / PGSIZE < npages sz := by
  rw [npages_eq hsz]
  simp only [PGSIZE]
  omega

theorem loadsegLoop_wp {va offset n i turns : ℕ} {file : List UInt8}
    (h : Image s s₁ own own₁ tramp trapframe c sz) (hu : AllUser s₁ c (npages sz))
    (hfit : va + n ≤ sz) (hi : i < n + PGSIZE) (hturns : n + PGSIZE ≤ i + turns * PGSIZE) :
    wp E (loadsegLoop c va file offset n turns i) (fun _ s' =>
      Image s s' own own₁ tramp trapframe c sz ∧ view s' c = view s₁ c) s₁ := by
  induction turns generalizing s₁ i with
  | zero => omega
  | succ turns ih =>
    refine wp.ite (fun hlt => ?_) fun _ => ⟨h, rfl⟩
    have hmem := h.sz_le_PHYSTOP
    obtain ⟨pa, flags, hpage⟩ := hu ((va + i) / PGSIZE) (lt_npages h.sz_le (by omega))
    have hmod : (va + i) % 2 ^ 64 = va + i := Nat.mod_eq_of_lt (by norm_num at hmem ⊢; omega)
    have hnext : uint (i + PGSIZE) = i + PGSIZE := Nat.mod_eq_of_lt (by norm_num at hmem ⊢; omega)
    rw [wp_bind, hmod, hnext]
    refine wp_of_ok (walkaddr_run (by norm_num at hmem ⊢; omega)) ?_
    rw [hpage.userPa_eq, if_neg (h.ne_zero hpage), wp_bind, wp_modify]
    have hstore : ∀ bytes, Image s (s₁.memmove pa 0 bytes) own own₁ tramp trapframe c sz ∧
        view (s₁.memmove pa 0 bytes) c = view s₁ c := fun bytes => h.store (fun m hm =>
      word_memmove_ne fun heq => hm _ (heq ▸ h.own_user hpage)) rfl rfl
    obtain ⟨h', hview⟩ := hstore _
    refine wp.ite (fun _ => ⟨h', hview⟩) fun _ => ?_
    refine (ih h' (hu.of_view hview) (Nat.add_lt_add_right hlt _) ?_).mono fun _ s' hs' =>
      ⟨hs'.1, hs'.2.trans hview⟩
    rw [Nat.add_assoc, Nat.add_comm PGSIZE, ← Nat.add_one_mul]
    exact hturns

/-- `loadseg` finds all its pages, and stores nowhere else. -/
theorem loadseg_wp {va offset n : ℕ} {file : List UInt8}
    (h : Image s s₁ own own₁ tramp trapframe c sz) (hu : AllUser s₁ c (npages sz))
    (hfit : va + n ≤ sz) : wp E (loadseg c va file offset n) (fun _ s' =>
      Image s s' own own₁ tramp trapframe c sz ∧ view s' c = view s₁ c) s₁ := by
  refine loadsegLoop_wp h hu hfit (by norm_num) ?_
  simp only [PGSIZE]
  omega

/-! ### The segments -/

theorem field_lt (b : List UInt8) (o n : ℕ) : field b o n < 256 ^ n := by
  refine (leNat_lt _).trans_le (Nat.pow_le_pow_right (by decide) ?_)
  rw [List.length_take]
  omega

theorem Proghdr.memsz_lt (b : List UInt8) :
    (Proghdr.parse b).vaddr < 2 ^ 64 ∧ (Proghdr.parse b).memsz < 2 ^ 64 :=
  ⟨field_lt b 16 8, field_lt b 40 8⟩

theorem flags2perm_lt (flags : ℕ) : PTE_R ||| PTE_U ||| flags2perm flags < 2 ^ 10 := by
  unfold flags2perm
  split <;> split <;> decide

theorem loadLoop_wp {phnum off : ℕ} {file : List UInt8}
    (h : Image s s₁ own own₁ tramp trapframe c sz) (hu : AllUser s₁ c (npages sz)) :
    wp E (loadLoop c file phnum off sz) (fun x s' =>
      ∃ own', Image s s' own own' tramp trapframe c x.2) s₁ := by
  induction phnum generalizing s₁ own₁ off sz with
  | zero => exact ⟨own₁, h⟩
  | succ phnum ih =>
    rw [loadLoop]
    have hlt := Proghdr.memsz_lt (readi file off Proghdr.size)
    generalize Proghdr.parse (readi file off Proghdr.size) = ph at hlt ⊢
    refine wp.ite (fun _ => ⟨own₁, h⟩) fun _ => wp.ite (fun _ => ih h hu) fun _ => ?_
    refine wp.ite (fun _ => ⟨own₁, h⟩) fun hmem => wp.ite (fun _ => ⟨own₁, h⟩) fun hwrap => ?_
    refine wp.ite (fun _ => ⟨own₁, h⟩) fun _ => ?_
    refine wp.bind (h.alloc (flags2perm_lt _)) ?_
    rintro x s₂ (⟨rfl, own₂, h₂⟩ | ⟨hx, hmax, ⟨own₂, h₂⟩, hsame, hnew⟩)
    · exact ⟨own₂, h₂⟩
    rw [if_neg hx]
    -- the old pages are the user's as before, and the new ones have the flag
    have hu₂ : AllUser s₂ c (npages x) := by
      intro v hv
      by_cases hold : v < npages sz
      · obtain ⟨pa, flags, hb, hf⟩ := hu v hold
        exact ⟨pa, flags, (hsame v hold).trans hb, hf⟩
      · obtain ⟨pa, hpa⟩ := hnew v (not_lt.mp hold) hv
        refine ⟨pa, _, hpa, ?_⟩
        rw [Nat.and_or_distrib_right, Nat.and_or_distrib_right]
        exact fun h0 => absurd (Nat.or_eq_zero_iff.mp (Nat.or_eq_zero_iff.mp h0).1).1 (by decide)
    have hfit : ph.vaddr + uint ph.filesz ≤ x := by grind [uint]
    refine wp.bind (loadseg_wp h₂ hu₂ hfit) ?_
    rintro r s₃ ⟨h₃, hview₃⟩
    exact wp.ite (fun _ => ⟨own₂, h₃⟩) fun _ => ih h₃ (hu₂.of_view hview₃)

end Xv6.Vm

import Xv6.Ftable.Pages

/-!
Open files over whole runs: counts are right when no call is in progress, and
what was opened is closed once.
-/

namespace Xv6.Ftable

open Sys

variable {N : ℕ}

def Pc.quiet : Pc N → Bool
  | .idle => true
  | .dead => true
  | _ => false

theorem quiet_cases {c : Pc N} (h : c.quiet = true) : c = .idle ∨ c = .dead := by
  cases c <;> first | exact .inl rfl | exact .inr rfl | cases h

structure Init (s : Sys N) : Prop where
  file : ∀ f, (s.file f).ref = 0 ∧ (s.file f).type = .FD_NONE
  ofile : ∀ p fd, s.ofile p fd = none
  page : ∀ pi, s.page pi = none
  trans : ∀ p, s.trans p = false
  pc : ∀ p, (s.pc p).quiet = true
  log : s.log = []

abbrev Interleaving : Sys N → Prop := Reachable Init (fun _ _ => True) Sys.step

structure Inv (s : Sys N) : Prop where
  control : Control s
  counted : Counted s
  typed : Typed s
  objects : Objects s
  pages : Pages s

namespace Inv

variable {s s' : Sys N}

theorem step {a : Act N} (h : Inv s) (hs : Step s a s') : Inv s' :=
  ⟨h.control.step hs, h.counted.step h.control hs, h.typed.step h.counted h.control hs,
    h.objects.step h.typed h.counted h.control hs, h.pages.step h.objects h.typed hs⟩

theorem of_init (h : Init s) : Inv s := by
  have hslots : ∀ q f, slots s q f = 0 := by grind [cnt_eq_zero.mpr, h.ofile, slots]
  have hcarry : ∀ q f, (s.pc q).carry f = 0 := fun q f => by
    rcases quiet_cases (h.pc q) with hq | hq <;> rw [hq] <;> rfl
  have hobj : ∀ f, (s.file f).obj = none := fun f => obj_none (h.file f).2
  have hdrops : ∀ q, (s.pc q).drops = none := fun q => by
    rcases quiet_cases (h.pc q) with hq | hq <;> rw [hq] <;> rfl
  have hheld : ∀ e, held s e = 0 := by grind [cnt_eq_zero.mpr, held]
  have hopened : ∀ e, s.opened e = 0 := fun e => by rw [opened, h.log]; rfl
  refine ⟨⟨fun q => ?_, fun q r np hq => ?_⟩, fun f => ?_,
    ⟨fun f _ => (h.file f).2, fun f hf => absurd (h.file f).1 hf, fun q f hf => ?_, fun q => ?_,
      fun q => ?_⟩,
    ⟨fun e => ?_, fun e => (hopened e).trans_le (Nat.zero_le _), fun e _ => hopened e, fun q => ?_⟩,
    ⟨fun f htype => ?_, fun q => ?_, fun pi x hx => ?_, fun pi _ x _ hx => ?_, fun n w hn => ?_,
      fun n w _ => ?_⟩⟩
  · rcases quiet_cases (h.pc q) with hq | hq <;> rw [hq]
    · trivial
    · exact fun fd _ => h.ofile q fd
  · rcases quiet_cases (h.pc q) with hq' | hq' <;> rw [hq'] at hq <;> cases hq
  · grind [h.file, Finset.sum_eq_zero, share]
  · rcases quiet_cases (h.pc q) with hq | hq <;> rw [hq] at hf <;> cases hf
  · rcases quiet_cases (h.pc q) with hq | hq <;> rw [hq] <;> trivial
  · rw [h.trans]
    rcases quiet_cases (h.pc q) with hq | hq <;> rw [hq] <;> rfl
  · rw [hopened, hheld, closed, h.log]
    rfl
  · rcases quiet_cases (h.pc q) with hq | hq <;> rw [hq] <;> trivial
  · rw [(h.file f).2] at htype
    cases htype
  · rcases quiet_cases (h.pc q) with hq | hq <;> rw [hq] <;> trivial
  · rw [h.page] at hx
    cases hx
  · rw [h.page] at hx
    cases hx
  · rw [hopened] at hn
    cases hn
  · rw [freed, h.log]
    rfl

theorem of_reachable (h : Interleaving s) : Inv s :=
  h.invariant (fun _ => of_init) fun _ _ _ hI _ hs => hI.step (step_cases hs)

end Inv

/-- The states in which some process is about to panic, to begin a transaction
inside another one or to close a pipe that is not there. -/
inductive Faulty (s : Sys N) : Prop
  | dup {p f} (hpc : s.pc p = .dup f) (href : (s.file f).ref < 1)
  | fork {p np i f} (hpc : s.pc p = .fork np i) (hi : i < NOFILE) (hf : s.ofile p i = some f)
      (href : (s.file f).ref < 1)
  | fileclose {p f k} (hpc : s.pc p = .fileclose f k) (href : (s.file f).ref < 1)
  | «open» {p} (hpc : s.pc p = .idle) (htrans : s.trans p = true)
  | nested {p ff k} (hpc : s.pc p = .release ff k) (htype : ff.type ≠ .FD_NONE)
      (htrans : s.trans p = true) (hpipe : ff.type ≠ .FD_PIPE)
  | pipeclose {p ff k} (hpc : s.pc p = .release ff k) (htype : ff.type = .FD_PIPE)
      (hpage : s.page ff.pipe = none)

theorem run_fault {s : Sys N} {p : Fin N} {e : Fault} (h : s.run p = .error e)
    (he : e ≠ .disabled) : Faulty s := by
  unfold Sys.run at h
  split at h
  case h_1 f hpc =>
    split_ifs at h with href
    exact .dup hpc href
  case h_11 np i hpc =>
    split_ifs at h with hi
    · split at h
      · cases h
      · rename_i f hf
        split_ifs at h with href
        exact .fork hpc hi hf href
  case h_15 f k hpc =>
    dsimp only at h
    split_ifs at h with href
    exact .fileclose hpc href
  case h_16 ff k hpc =>
    split at h
    · cases h
    · rename_i htype
      rcases hpage : s.page ff.pipe with _ | x
      · exact .pipeclose hpc htype hpage
      · simp only [Sys.pipeclose, hpage] at h
        split_ifs at h <;> cases h
    · rename_i hnone hpipe
      unfold Sys.beginOp at h
      split_ifs at h with htrans
      · exact .nested hpc hnone htrans hpipe
      · cases h
  case h_18 =>
    cases h
    exact absurd rfl he
  case h_13 =>
    split_ifs at h
    split at h <;> cases h
  all_goals first | cases h | (split at h <;> cases h)

theorem step_fault {s : Sys N} {a : Act N} {e : Fault} (h : s.step a = .error e)
    (he : e ≠ .disabled) : Faulty s := by
  cases a with
  | step p => exact run_fault h he
  | «open» p o =>
    simp only [Sys.step] at h
    split at h
    · rename_i hpc
      unfold Sys.beginOp at h
      split_ifs at h with htrans
      · exact .open hpc htrans
      · cases h
    · cases h
      exact absurd rfl he
  | dup p fd =>
    simp only [Sys.step] at h
    split at h
    · split at h
      · cases h
      · split at h <;> cases h
    · cases h
      exact absurd rfl he
  | kalloc p pi =>
    simp only [Sys.step] at h
    split at h
    · cases h
    · split at h <;> cases h
      exact absurd rfl he
    · cases h
      exact absurd rfl he
  | copyout p ok =>
    simp only [Sys.step] at h
    split at h
    · split_ifs at h
    · cases h
      exact absurd rfl he
  | close p fd =>
    simp only [Sys.step] at h
    split at h
    · split at h <;> cases h
    · cases h
      exact absurd rfl he
  | _ =>
    simp only [Sys.step] at h
    split at h <;> cases h
    exact absurd rfl he

namespace Inv

variable {s : Sys N}

theorem not_faulty (h : Inv s) : ¬ Faulty s := by
  intro hf
  have hfits := h.control.fits
  have hle := h.counted.share_le h.control
  cases hf with
  | @dup p f hpc href =>
    have h₁ := hfits p
    rw [hpc] at h₁
    have h₂ : 2 ≤ slots s p f := h₁
    have h₃ := hle p f
    rw [share, hpc] at h₃
    simp only [Pc.carry, one_self] at h₃
    linarith
  | @fork p np i f hpc hi hf href =>
    have h₁ := one_le_slots hi hf
    have h₂ := hle p f
    rw [share, hpc] at h₂
    simp only [Pc.carry] at h₂
    linarith
  | @fileclose p f k hpc href => linarith [(hfits p).share_fileclose hpc, hle p f]
  | @«open» p hpc htrans =>
    rw [h.typed.trans, hpc] at htrans
    cases htrans
  | @nested p ff k hpc htype htrans =>
    have h₁ := h.typed.untyped p
    rw [h.typed.trans, hpc] at htrans
    rw [hpc] at h₁
    cases k with
    | openFail => exact htype h₁
    | _ => cases htrans
  | @pipeclose p ff k hpc htype hpage =>
    have h₁ := h.pages.drop p
    rw [hpc] at h₁
    obtain ⟨x, hx, -⟩ := h₁ htype
    rw [hpage] at hx
    cases hx

theorem file_obj (h : Inv s) {f : ℕ} {e : Obj} (hf : (s.file f).obj = some e) :
    f < NFILE ∧ s.closed e = 0 ∧ (s.file f).ref ≠ 0 := by
  have href : (s.file f).ref ≠ 0 := fun href => by
    rw [obj_none (h.typed.free f href)] at hf
    cases hf
  have hlt := h.typed.lt f href
  exact ⟨hlt, (h.objects.closed_of_held (held_file hlt hf)).1, href⟩

theorem freed_iff (h : Inv s) {n : ℕ} {w : Bool} (hn : s.opened (.pipe n w) = 1) :
    s.freed n = 1 ↔ ∀ w', s.closed (.pipe n w') = 1 := by
  rcases h.pages.gone n w hn with ⟨pi, x, hx, rfl⟩ | ⟨h₁, h₂⟩
  · obtain ⟨-, hends, ⟨w₀, hw₀⟩, hfreed⟩ := h.pages.live pi x hx
    rw [hfreed]
    refine ⟨nofun, fun hall => ?_⟩
    rw [hends, hall] at hw₀
    cases hw₀
  · exact ⟨fun _ => h₂, fun _ => h₁⟩

theorem freed_le (h : Inv s) (n : ℕ) : s.freed n ≤ 1 := by
  have honce := h.objects.once (.pipe n true)
  rcases Nat.le_one_iff_eq_zero_or_eq_one.mp honce with h₀ | h₁
  · rw [h.pages.never n true h₀]
    exact Nat.zero_le _
  · rcases h.pages.gone n true h₁ with ⟨pi, x, hx, rfl⟩ | ⟨h₂, -⟩
    · rw [(h.pages.live pi x hx).freed]
      exact Nat.zero_le _
    · exact h₂.le

section Quiet

variable (hquiet : ∀ p, (s.pc p).quiet = true)
include hquiet

theorem ref_eq (h : Inv s) (f : ℕ) : (s.file f).ref = ∑ p, slots s p f := by
  rw [h.counted f]
  refine Finset.sum_congr rfl fun p _ => ?_
  rw [share]
  rcases quiet_cases (hquiet p) with hp | hp <;> rw [hp] <;> exact add_zero _

theorem closed_iff (h : Inv s) {e : Obj} (he : s.opened e = 1) :
    s.closed e = 1 ↔ ∀ p fd f, fd < NOFILE → s.ofile p fd = some f → (s.file f).obj ≠ some e := by
  have hdrops : cnt Finset.univ (fun p => (s.pc p).drops) (some e) = 0 :=
    cnt_eq_zero.mpr fun p _ => by
      rcases quiet_cases (hquiet p) with hp | hp <;> rw [hp] <;> exact nofun
  have hbalance := h.objects.balance e
  rw [held, hdrops] at hbalance
  constructor
  · intro hclosed p fd f _ _ hf
    have := (h.file_obj hf).2.1
    omega
  · intro hall
    have hnone : cnt (Finset.range NFILE) (fun f => (s.file f).obj) (some e) = 0 := by
      refine cnt_eq_zero.mpr fun f _ hf => ?_
      -- a file that is open has a descriptor
      have href := (h.file_obj hf).2.2
      rw [h.ref_eq hquiet f] at href
      obtain ⟨p, -, hp⟩ := Finset.exists_ne_zero_of_sum_ne_zero href
      have hcnt : cnt (Finset.range NOFILE) (s.ofile p) (some f) ≠ 0 :=
        fun h₀ => hp (by rw [slots, h₀]; rfl)
      rw [Ne, cnt_eq_zero] at hcnt
      push Not at hcnt
      obtain ⟨fd, hfd, hof⟩ := hcnt
      exact hall p fd f (Finset.mem_range.mp hfd) hof hf
    omega

end Quiet

end Inv

/-- Open files are counted and closed once. When no call is in progress, the
count of an entry is the number of descriptors for it, and a pipe end or inode
reference that was opened is closed just when no descriptor is for it. At all
times a free entry has no type, what was opened is closed at most once and not
while a file is open for it, the page of a pipe is freed once, with its second
end, and no process panics, closes a pipe that is not there or begins a
transaction inside another one. -/
theorem files_closed_once {N : ℕ} {s : Sys N} (h : Interleaving s) :
    ((∀ p, (s.pc p).quiet = true) →
      (∀ f, (s.file f).ref = ∑ p, (cnt (Finset.range NOFILE) (s.ofile p) (some f) : ℤ)) ∧
      ∀ e, s.opened e = 1 → (s.closed e = 1 ↔
        ∀ p fd f, fd < NOFILE → s.ofile p fd = some f → (s.file f).obj ≠ some e)) ∧
    (∀ f, (s.file f).ref = 0 → (s.file f).type = .FD_NONE) ∧
    (∀ e, s.closed e ≤ s.opened e ∧ s.opened e ≤ 1) ∧
    (∀ f e, (s.file f).obj = some e → s.opened e = 1 ∧ s.closed e = 0) ∧
    (∀ n, s.freed n ≤ 1) ∧
    (∀ n w, s.opened (.pipe n w) = 1 → (s.freed n = 1 ↔ ∀ w', s.closed (.pipe n w') = 1)) ∧
    ∀ a e, s.step a = .error e → e = .disabled := by
  have hinv := Inv.of_reachable h
  refine ⟨fun hquiet => ⟨hinv.ref_eq hquiet, fun e he => hinv.closed_iff hquiet he⟩,
    hinv.typed.free, fun e => ⟨?_, hinv.objects.once e⟩, fun f e hf => ?_, hinv.freed_le,
    fun n w hn => hinv.freed_iff hn, fun a e he => ?_⟩
  · rw [hinv.objects.balance e]
    exact Nat.le_add_left ..
  · have hc := hinv.objects.closed_of_held (held_file (hinv.file_obj hf).1 hf)
    exact ⟨hc.2.1, hc.1⟩
  · by_contra hne
    exact hinv.not_faulty (step_fault he hne)

def fresh : Sys 2 where
  file := fun _ => ⟨⟨.FD_NONE, 0, false, false, 0, 0, 0⟩, 0, 0⟩
  ofile := fun _ _ => none
  page := fun _ => none
  trans := fun _ => false
  pc := fun p => if p = 0 then .idle else .dead
  next := 0
  log := []

theorem fresh_init : Init fresh :=
  ⟨fun _ => ⟨rfl, rfl⟩, fun _ _ => rfl, fun _ => rfl, fun _ => rfl, by decide +kernel, rfl⟩

/-- Process 0 opens a file, duplicates the descriptor and closes it; makes a
pipe, which fails in the end since `copyout` does; and closes the file. -/
def openPipeClose : List (Act 2) :=
  [.open 0 ⟨7, T_FILE, 0, O_RDWR⟩, .step 0, .step 0, .step 0, .step 0, .dup 0 0, .step 0,
    .close 0 0, .step 0, .pipe 0, .step 0, .step 0, .kalloc 0 (some 3), .step 0, .step 0,
    .copyout 0 false, .step 0, .step 0, .step 0, .step 0, .close 0 1, .step 0, .step 0, .step 0]

theorem files_closed_once_openPipeClose :
    ∃ s, runActs (fun _ _ => True) Sys.step openPipeClose fresh = some s ∧
      (s.file 0).ref = ∑ p, (cnt (Finset.range NOFILE) (s.ofile p) (some 0) : ℤ) ∧
      s.closed (.inode 0) = 1 ∧ (∀ p fd f, fd < NOFILE → s.ofile p fd = some f →
        (s.file f).obj ≠ some (.inode 0)) ∧
      s.freed 1 = 1 ∧ ∀ w, s.closed (.pipe 1 w) = 1 := by
  obtain ⟨s, hs, hopened, hclosed, hpipe, hfreed, hquiet⟩ :
      ∃ s ∈ runActs (fun _ _ => True) Sys.step openPipeClose fresh,
        s.opened (.inode 0) = 1 ∧ s.closed (.inode 0) = 1 ∧ s.opened (.pipe 1 true) = 1 ∧
        s.freed 1 = 1 ∧ ∀ p, (s.pc p).quiet = true := by
    decide +kernel
  have hreach : Interleaving s := (Reachable.init fresh_init).runActs hs
  obtain ⟨hq, -, -, -, -, hfree, -⟩ := files_closed_once hreach
  exact ⟨s, hs, (hq hquiet).1 0, hclosed, ((hq hquiet).2 _ hopened).mp hclosed, hfreed,
    (hfree 1 true hpipe).mp hfreed⟩

end Xv6.Ftable

import Xv6.Lib.Machine

/-!
Code under one spinlock that sleeps and wakes.

`N` processes run code that holds one lock `lk` except while it sleeps. Their steps are
the sections of the kernel's spinlocks: taking `lk`, one stretch of code under `lk`
(`Code.exec`, between two accesses to another process or to the `killed` flag), one turn
of the loop of `wakeup`, and the two halves of `sleep`, which first takes the sleeper's
own lock and gives up `lk` and then marks it as sleeping. `kill` may hit any process at
any point but one that is halfway into `sleep`, for whose lock it waits.

`Wakes` is the rule by which such code is shown to lose no wakeup. It asks what every
point of the code owes: a channel whose sleepers it may have to wake before it gives up
the lock.
-/

namespace Xv6.Monitor

open Function (update update_self update_of_ne)

/-- Where a process is; `k` is the point of the code at which it goes on. -/
inductive Pc (κ χ : Type)
  | out
  | acq (k : κ)
  | run (k : κ)
  | wake (c : χ) (j : ℕ) (k : κ)
  | doze (c : χ) (k : κ)
  | asleep (c : χ) (k : κ)
  deriving DecidableEq

/-- How a stretch of code ends. -/
inductive Next (κ χ : Type)
  | goto (k : κ)
  | wakeup (c : χ) (k : κ)
  | sleep (c : χ) (k : κ)
  | done
  deriving DecidableEq

structure Sys (N : ℕ) (σ κ χ : Type) where
  shared : σ
  lock : Option (Fin N)
  pc : Fin N → Pc κ χ
  killed : Fin N → Bool

inductive Act (N : ℕ) (κ ι : Type)
  | call (p : Fin N) (k : κ)
  | step (p : Fin N) (io : ι)
  | kill (p : Fin N)
  deriving DecidableEq

inductive Disabled
  | disabled
  deriving DecidableEq

/-- The code under the lock: at which points it is entered from outside, and
what the stretch from a point does to the shared state, given whether the
process is killed and an input. -/
structure Code (σ κ χ ι : Type) where
  start : κ → Bool
  exec : σ → κ → Bool → ι → Option (σ × Next κ χ)

variable {N : ℕ} {σ κ χ ι : Type}

namespace Sys

def setPc (s : Sys N σ κ χ) (p : Fin N) (c : Pc κ χ) : Sys N σ κ χ :=
  { s with pc := update s.pc p c }

def leave (s : Sys N σ κ χ) (p : Fin N) (x : σ) : Next κ χ → Sys N σ κ χ
  | .goto k => { s.setPc p (.run k) with shared := x }
  | .wakeup c k => { s.setPc p (.wake c 0 k) with shared := x }
  | .sleep c k => { s.setPc p (.doze c k) with shared := x, lock := none }
  | .done => { s.setPc p .out with shared := x, lock := none }

def rouse [DecidableEq χ] (s : Sys N σ κ χ) (c : χ) (q : Fin N) : Option (Sys N σ κ χ) :=
  match s.pc q with
  | .doze _ _ => none
  | .asleep c' k => some (if c' = c then s.setPc q (.acq k) else s)
  | _ => some s

def step [DecidableEq χ] (code : Code σ κ χ ι) (s : Sys N σ κ χ) :
    Act N κ ι → Except Disabled (Sys N σ κ χ)
  | .call p k =>
    match s.pc p with
    | .out => if code.start k then .ok (s.setPc p (.acq k)) else .error .disabled
    | _ => .error .disabled
  | .kill p =>
    match s.pc p with
    | .doze _ _ => .error .disabled
    | .asleep _ k => .ok { s.setPc p (.acq k) with killed := update s.killed p true }
    | _ => .ok { s with killed := update s.killed p true }
  | .step p io =>
    match s.pc p with
    | .acq k =>
      if s.lock = none then .ok { s.setPc p (.run k) with lock := some p }
      else .error .disabled
    | .run k =>
      match code.exec s.shared k (s.killed p) io with
      | some (x, next) => .ok (s.leave p x next)
      | none => .error .disabled
    | .wake c j k =>
      if h : j < N then
        match s.rouse c ⟨j, h⟩ with
        | some s' => .ok (s'.setPc p (.wake c (j + 1) k))
        | none => .error .disabled
      else .ok (s.setPc p (.run k))
    | .doze c k => .ok (s.setPc p (.asleep c k))
    | _ => .error .disabled

/-- What a step does, one case for each kind of section. -/
inductive Step (code : Code σ κ χ ι) (s : Sys N σ κ χ) : Act N κ ι → Sys N σ κ χ → Prop
  | call {p k} (hpc : s.pc p = .out) (hk : code.start k = true) :
      Step code s (.call p k) (s.setPc p (.acq k))
  | killAsleep {p c k} (hpc : s.pc p = .asleep c k) :
      Step code s (.kill p)
        { s.setPc p (.acq k) with killed := update s.killed p true }
  | kill {p} : Step code s (.kill p) { s with killed := update s.killed p true }
  | acquire {p k io} (hpc : s.pc p = .acq k) (hlock : s.lock = none) :
      Step code s (.step p io) { s.setPc p (.run k) with lock := some p }
  | exec {p k io x next} (hpc : s.pc p = .run k)
      (hexec : code.exec s.shared k (s.killed p) io = some (x, next)) :
      Step code s (.step p io) (s.leave p x next)
  | rouse {p c j k io k'} {q : Fin N} (hpc : s.pc p = .wake c j k) (hq : (q : ℕ) = j)
      (hsleep : s.pc q = .asleep c k') :
      Step code s (.step p io) ((s.setPc q (.acq k')).setPc p (.wake c (j + 1) k))
  | pass {p c j k io} {q : Fin N} (hpc : s.pc p = .wake c j k) (hq : (q : ℕ) = j)
      (hdoze : ∀ c' k', s.pc q ≠ .doze c' k') (hsleep : ∀ k', s.pc q ≠ .asleep c k') :
      Step code s (.step p io) (s.setPc p (.wake c (j + 1) k))
  | woken {p c j k io} (hpc : s.pc p = .wake c j k) (hj : N ≤ j) :
      Step code s (.step p io) (s.setPc p (.run k))
  | sleep {p c k io} (hpc : s.pc p = .doze c k) :
      Step code s (.step p io) (s.setPc p (.asleep c k))

theorem step_cases [DecidableEq χ] {code : Code σ κ χ ι} {s s' : Sys N σ κ χ} {a : Act N κ ι}
    (h : s.step code a = .ok s') : Step code s a s' := by
  cases a with
  | call p k =>
    simp only [step] at h
    split at h
    · rename_i hpc
      split at h
      · cases h
        exact .call hpc ‹_›
      · cases h
    · cases h
  | kill p =>
    simp only [step] at h
    split at h
    · cases h
    · rename_i hpc
      cases h
      exact .killAsleep hpc
    · cases h
      exact .kill
  | step p io =>
    simp only [step] at h
    split at h
    · rename_i hpc
      split at h
      · cases h
        exact .acquire hpc ‹_›
      · cases h
    · rename_i hpc
      split at h
      · rename_i hexec
        cases h
        exact .exec hpc hexec
      · cases h
    · rename_i c j k hpc
      split at h
      · rename_i hj
        simp only [rouse] at h
        split at h
        · rename_i hrouse
          cases h
          split at hrouse
          · cases hrouse
          · rename_i c' k' hq
            split at hrouse
            · rename_i hc
              cases hrouse
              exact .rouse hpc rfl (hc ▸ hq)
            · rename_i hc
              cases hrouse
              refine .pass (q := ⟨j, hj⟩) hpc rfl (fun _ _ h' => ?_) fun k'' h' => ?_
              · rw [hq] at h'
                cases h'
              · rw [hq] at h'
                cases h'
                exact hc rfl
          · rename_i hdoze hsleep
            cases hrouse
            exact .pass (q := ⟨j, hj⟩) hpc rfl hdoze fun k' => hsleep c k'
        · cases h
      · cases h
        exact .woken hpc (not_lt.mp ‹_›)
    · rename_i hpc
      cases h
      exact .sleep hpc
    · cases h

structure Initial (init : σ → Prop) (s : Sys N σ κ χ) : Prop where
  shared : init s.shared
  lock : s.lock = none
  pc : ∀ p, s.pc p = .out

end Sys

namespace Pc

def inside : Pc κ χ → Option κ
  | .run k => some k
  | .wake _ _ k => some k
  | _ => none

/-- The point at which the process goes on when it has the lock. -/
def waits : Pc κ χ → Option κ
  | .acq k => some k
  | .doze _ k => some k
  | .asleep _ k => some k
  | _ => none

def sleeps : Pc κ χ → Option (χ × κ)
  | .doze c k => some (c, k)
  | .asleep c k => some (c, k)
  | _ => none

end Pc

/-! ### What every stretch keeps -/

theorem shared_invariant [DecidableEq χ] {code : Code σ κ χ ι} {init : σ → Prop}
    {ok : Sys N σ κ χ → Act N κ ι → Prop} {I : σ → Prop} {A : ι → Prop} (hinit : ∀ x, init x → I x)
    (hok : ∀ s p io, ok s (.step p io) → A io)
    (hexec : ∀ {x k kd io x' next}, I x → A io → code.exec x k kd io = some (x', next) → I x')
    {s : Sys N σ κ χ} (h : Reachable (Sys.Initial init) ok (Sys.step code) s) : I s.shared := by
  refine h.invariant (I := fun s => I s.shared) (fun s hs => hinit _ hs.shared) ?_
  intro s a s' hI ha hs
  cases Sys.step_cases hs with
  | exec hpc hx =>
    rename_i next
    cases next <;> exact hexec hI (hok _ _ _ ha) hx
  | call | killAsleep | kill | acquire | rouse | pass | woken | sleep => exact hI

def Pc.point : Pc κ χ → Option κ
  | .out => none
  | .acq k => some k
  | .run k => some k
  | .wake _ _ k => some k
  | .doze _ k => some k
  | .asleep _ k => some k

def Next.point : Next κ χ → Option κ
  | .goto k => some k
  | .wakeup _ k => some k
  | .sleep _ k => some k
  | .done => none

theorem point_leave (s : Sys N σ κ χ) (p : Fin N) (x : σ) (next : Next κ χ) :
    ((s.leave p x next).pc p).point = next.point ∧
      (∀ q, q ≠ p → (s.leave p x next).pc q = s.pc q) ∧ (s.leave p x next).shared = x := by
  cases next <;> simp +contextual [Sys.leave, Sys.setPc, Pc.point, Next.point, update_of_ne]

theorem points_invariant [DecidableEq χ] {code : Code σ κ χ ι} {init : σ → Prop}
    {ok : Sys N σ κ χ → Act N κ ι → Prop} {I : σ → Prop} {K : κ → Prop} {A : Bool → ι → Prop}
    (hinit : ∀ x, init x → I x) (hok : ∀ s p io, ok s (.step p io) → A (s.killed p) io)
    (hcall : ∀ s p k, ok s (.call p k) → code.start k = true → K k)
    (hexec : ∀ {x k kd io x' next}, I x → K k → A kd io → code.exec x k kd io = some (x', next) →
      I x' ∧ ∀ k', next.point = some k' → K k')
    {s : Sys N σ κ χ} (h : Reachable (Sys.Initial init) ok (Sys.step code) s) :
    I s.shared ∧ ∀ p k, (s.pc p).point = some k → K k := by
  refine h.invariant (I := fun s => I s.shared ∧ ∀ p k, (s.pc p).point = some k → K k) ?_ ?_
  · intro s hs
    refine ⟨hinit _ hs.shared, fun p k hk => ?_⟩
    rw [hs.pc p] at hk
    cases hk
  · rintro s a s' ⟨hI, hK⟩ ha hs
    -- a process that only moves between the sections of one point
    have hmove : ∀ {t : Sys N σ κ χ} {p : Fin N} {c : Pc κ χ},
        (∀ q k, (t.pc q).point = some k → K k) → (∀ k, c.point = some k → K k) →
        ∀ q k, ((t.setPc p c).pc q).point = some k → K k := by
      intro t p c ht hc q k hk
      rcases eq_or_ne q p with rfl | hqp
      · simp only [Sys.setPc, update_self] at hk
        exact hc k hk
      · simp only [Sys.setPc, update_of_ne hqp] at hk
        exact ht q k hk
    have hat : ∀ {p : Fin N} {c : Pc κ χ} {k : κ}, s.pc p = c → c.point = some k → K k := by grind
    cases Sys.step_cases hs with
    | call hpc hk =>
      refine ⟨hI, hmove hK ?_⟩
      rintro _ ⟨⟩
      exact hcall _ _ _ ha hk
    | killAsleep hpc | acquire hpc hlock | pass hpc hq hdoze hsleep | woken hpc hj | sleep hpc =>
      refine ⟨hI, hmove hK ?_⟩
      rintro _ ⟨⟩
      exact hat hpc rfl
    | kill => exact ⟨hI, hK⟩
    | @exec p k io x next hpc hx =>
      obtain ⟨hI', hK'⟩ := hexec hI (hat hpc rfl) (hok _ _ _ ha) hx
      obtain ⟨hp, hothers, hshared⟩ := point_leave s p x next
      refine ⟨hshared.symm ▸ hI', fun q k' hq => ?_⟩
      rcases eq_or_ne q p with rfl | hqp
      · exact hK' k' (hp.symm.trans hq)
      · rw [hothers q hqp] at hq
        exact hK q k' hq
    | rouse hpc hq hsleep =>
      refine ⟨hI, hmove (hmove hK ?_) ?_⟩
      · rintro _ ⟨⟩
        exact hat hsleep rfl
      · rintro _ ⟨⟩
        exact hat hpc rfl

/-! ### No lost wakeup -/

/-- The rule for code that loses no wakeup. `blocks x c k`: in the shared
state `x` it is right to sleep on `c` at `k`. `owes k c`: from `k` on the
code wakes the sleepers of `c` before it gives up the lock. `here x kd k`
holds when a process that has the lock is at `k`, and always at the points of
`entry`, where processes come in. -/
structure Wakes (code : Code σ κ χ ι) where
  entry : κ → Prop
  here : σ → Bool → κ → Prop
  blocks : σ → χ → κ → Prop
  owes : κ → χ → Prop
  start : ∀ k, code.start k = true → entry k
  resume : ∀ x kd k, entry k → here x kd k
  goto : ∀ {x k kd io x' k'}, here x kd k → code.exec x k kd io = some (x', .goto k') →
    here x' kd k' ∧ ∀ c k₀, blocks x c k₀ ∨ owes k c → blocks x' c k₀ ∨ owes k' c
  wakeup : ∀ {x k kd io x' c' k'}, here x kd k → code.exec x k kd io = some (x', .wakeup c' k') →
    here x' kd k' ∧
      ∀ c k₀, blocks x c k₀ ∨ owes k c → c = c' ∨ blocks x' c k₀ ∨ owes k' c
  sleep : ∀ {x k kd io x' c' k'}, here x kd k → code.exec x k kd io = some (x', .sleep c' k') →
    entry k' ∧ blocks x' c' k' ∧ ∀ c k₀, blocks x c k₀ ∨ owes k c → blocks x' c k₀
  done : ∀ {x k kd io x'}, here x kd k → code.exec x k kd io = some (x', .done) →
    ∀ c k₀, blocks x c k₀ ∨ owes k c → blocks x' c k₀

namespace Wakes

variable {code : Code σ κ χ ι} (W : Wakes code)

/-- A process at this point of the code will wake process `p` if it sleeps on
`c`. -/
def Pending (c : χ) (p : ℕ) : Pc κ χ → Prop
  | .run k => W.owes k c
  | .wake c' j k => c = c' ∧ j ≤ p ∨ W.owes k c
  | _ => False

structure Inv (s : Sys N σ κ χ) : Prop where
  holder : ∀ p k, (s.pc p).inside = some k → s.lock = some p
  here : ∀ p k, (s.pc p).inside = some k → W.here s.shared (s.killed p) k
  entry : ∀ p k, (s.pc p).waits = some k → W.entry k
  blocked : ∀ p c k, (s.pc p).sleeps = some (c, k) → W.blocks s.shared c k ∨
    ∃ q, s.lock = some q ∧ W.Pending c p (s.pc q)

section

variable {W} {s : Sys N σ κ χ} {p : Fin N}

theorem Inv.move {c' : Pc κ χ} {x : σ} {lock : Option (Fin N)} {killed : Fin N → Bool} (h : W.Inv s)
    (hkilled : ∀ q, q ≠ p → killed q = s.killed q)
    (hothers : ∀ q k, q ≠ p → (s.pc q).inside = some k → lock = some q ∧ W.here x (s.killed q) k)
    (hinside : ∀ k, c'.inside = some k → lock = some p ∧ W.here x (killed p) k)
    (hwaits : ∀ k, c'.waits = some k → W.entry k)
    (hsleeps : ∀ c k, c'.sleeps = some (c, k) → W.blocks x c k ∨
      ∃ q, lock = some q ∧ W.Pending c p (update s.pc p c' q))
    (hblocked : ∀ q c k, q ≠ p → (s.pc q).sleeps = some (c, k) → W.blocks x c k ∨
      ∃ q', lock = some q' ∧ W.Pending c q (update s.pc p c' q')) :
    W.Inv { shared := x, lock := lock, pc := update s.pc p c', killed := killed } := by
  refine ⟨fun q k hq => ?_, fun q k hq => ?_, fun q k hq => ?_, fun q c k hq => ?_⟩
  all_goals dsimp only at hq ⊢
  all_goals by_cases hqp : q = p
  · subst hqp
    rw [update_self] at hq
    exact (hinside k hq).1
  · rw [update_of_ne hqp] at hq
    exact (hothers q k hqp hq).1
  · subst hqp
    rw [update_self] at hq
    exact (hinside k hq).2
  · grind
  · subst hqp
    rw [update_self] at hq
    exact hwaits k hq
  · rw [update_of_ne hqp] at hq
    exact h.entry q k hq
  · subst hqp
    rw [update_self] at hq
    exact hsleeps c k hq
  · rw [update_of_ne hqp] at hq
    exact hblocked q c k hqp hq

theorem Inv.held {k : κ} (h : W.Inv s) (hp : (s.pc p).inside = some k) :
    s.lock = some p ∧ (∀ q, q ≠ p → (s.pc q).inside = none) ∧
      ∀ q c k₀, (s.pc q).sleeps = some (c, k₀) →
        W.blocks s.shared c k₀ ∨ W.Pending c q (s.pc p) := by
  have hlock := h.holder p k hp
  refine ⟨hlock, fun q hq => ?_, fun q c k₀ hs => ?_⟩
  · refine Option.eq_none_iff_forall_ne_some.mpr fun k' hk' => hq ?_
    exact Option.some.inj ((h.holder q k' hk').symm.trans hlock)
  · grind [h.blocked]

theorem Inv.leave {k : κ} {io : ι} {x : σ} {next : Next κ χ} (h : W.Inv s) (hpc : s.pc p = .run k)
    (hexec : code.exec s.shared k (s.killed p) io = some (x, next)) : W.Inv (s.leave p x next) := by
  have hin : (s.pc p).inside = some k := by rw [hpc]; rfl
  obtain ⟨hlock, hout, hsleep⟩ := h.held hin
  have hhere := h.here p k hin
  rw [hpc] at hsleep
  have hothers : ∀ lock q k', q ≠ p → (s.pc q).inside = some k' →
      lock = some q ∧ W.here x (s.killed q) k' := by grind
  cases next with
  | goto k' =>
    obtain ⟨hhere', howes⟩ := W.goto hhere hexec
    refine h.move (fun _ _ => rfl) (hothers _) ?_ (by simp [Pc.waits]) (by simp [Pc.sleeps]) ?_
    · rintro _ ⟨⟩
      exact ⟨hlock, hhere'⟩
    · intro q c k₀ _ hs
      refine (howes c k₀ (hsleep q c k₀ hs)).imp_right fun ho => ⟨p, hlock, ?_⟩
      rw [update_self]
      exact ho
  | wakeup c' k' =>
    obtain ⟨hhere', howes⟩ := W.wakeup hhere hexec
    refine h.move (fun _ _ => rfl) (hothers _) ?_ (by simp [Pc.waits]) (by simp [Pc.sleeps]) ?_
    · rintro _ ⟨⟩
      exact ⟨hlock, hhere'⟩
    · intro q c k₀ _ hs
      rcases howes c k₀ (hsleep q c k₀ hs) with hc | hb | ho
      · refine .inr ⟨p, hlock, ?_⟩
        rw [update_self]
        exact .inl ⟨hc, Nat.zero_le _⟩
      · exact .inl hb
      · refine .inr ⟨p, hlock, ?_⟩
        rw [update_self]
        exact .inr ho
  | sleep c' k' =>
    obtain ⟨hentry, hself, hb⟩ := W.sleep hhere hexec
    refine h.move (fun _ _ => rfl) (hothers _) (by simp [Pc.inside]) ?_ ?_ ?_
    · rintro _ ⟨⟩
      exact hentry
    · rintro _ _ ⟨⟩
      exact .inl hself
    · exact fun q c k₀ _ hs => .inl (hb c k₀ (hsleep q c k₀ hs))
  | done =>
    have hb := W.done hhere hexec
    refine h.move (fun _ _ => rfl) (hothers _) (by simp [Pc.inside]) (by simp [Pc.waits])
      (by simp [Pc.sleeps]) ?_
    exact fun q c k₀ _ hs => .inl (hb c k₀ (hsleep q c k₀ hs))

theorem Pending.ne {c : χ} {n : ℕ} {q : Fin N} (hpend : W.Pending c n (s.pc q))
    (hout : (s.pc p).inside = none) : q ≠ p := by
  rintro rfl
  cases hpc : s.pc q with
  | run k | wake c' j k => simp [hpc, Pc.inside] at hout
  | out | acq k | doze c' k | asleep c' k => simp [hpc, Pending] at hpend

theorem Inv.shift {c' : Pc κ χ} {killed : Fin N → Bool} (h : W.Inv s)
    (hkilled : ∀ q, q ≠ p → killed q = s.killed q) (hold : (s.pc p).inside = none)
    (hnew : c'.inside = none) (hwaits : ∀ k, c'.waits = some k → W.entry k)
    (hsleeps : ∀ c k, c'.sleeps = some (c, k) → (s.pc p).sleeps = some (c, k)) :
    W.Inv { s.setPc p c' with killed := killed } := by
  have hkeep : ∀ q c k, (s.pc q).sleeps = some (c, k) → W.blocks s.shared c k ∨
      ∃ q', s.lock = some q' ∧ W.Pending c q (update s.pc p c' q') := by
    intro q c k hs
    refine (h.blocked q c k hs).imp_right ?_
    rintro ⟨q', hlock, hpend⟩
    refine ⟨q', hlock, ?_⟩
    rwa [update_of_ne (hpend.ne hold)]
  refine h.move hkilled (fun q k _ hk => ⟨h.holder q k hk, h.here q k hk⟩) ?_ hwaits
    (fun c k hs => hkeep p c k (hsleeps c k hs)) fun q c k _ hs => hkeep q c k hs
  intro k hk
  rw [hnew] at hk
  cases hk

theorem Inv.acquire {k : κ} (h : W.Inv s) (hpc : s.pc p = .acq k) (hlock : s.lock = none) :
    W.Inv { s.setPc p (.run k) with lock := some p } := by
  have hentry := h.entry p k (by rw [hpc]; rfl)
  have hfree : ∀ q k', (s.pc q).inside ≠ some k' := by grind [Inv]
  refine h.move (fun _ _ => rfl) (fun q k' _ hk' => absurd hk' (hfree q k')) ?_
    (by simp [Pc.waits]) (by simp [Pc.sleeps]) fun q c k₀ _ hs => .inl ?_
  · rintro _ ⟨⟩
    exact ⟨rfl, W.resume _ _ _ hentry⟩
  · refine (h.blocked q c k₀ hs).resolve_right ?_
    rintro ⟨q', hq', -⟩
    rw [hlock] at hq'
    cases hq'

/-- The loop of `wakeup` moves on when process `j` does not sleep on `c`, and
ends after the last one. -/
theorem Inv.advance {c : χ} {j : ℕ} {k : κ} {c' : Pc κ χ} (h : W.Inv s) (hpc : s.pc p = .wake c j k)
    (hin : c'.inside = some k) (hw : c'.waits = none) (hsl : c'.sleeps = none)
    (hpend : ∀ q c₀ k₀, (s.pc q).sleeps = some (c₀, k₀) → W.Pending c₀ q (.wake c j k) →
      W.Pending c₀ q c') : W.Inv (s.setPc p c') := by
  have hin' : (s.pc p).inside = some k := by rw [hpc]; rfl
  obtain ⟨hlock, hout, hsleep⟩ := h.held hin'
  refine h.move (fun _ _ => rfl) (fun q k' hq hk' => ?_) (fun k' hk' => ?_) (by simp [hw])
    (by simp [hsl]) fun q c₀ k₀ _ hs => ?_
  · rw [hout q hq] at hk'
    cases hk'
  · rw [hin] at hk'
    cases hk'
    exact ⟨hlock, h.here p k hin'⟩
  · grind

theorem Inv.step {s' : Sys N σ κ χ} {a : Act N κ ι} (h : W.Inv s)
    (hkill : ∀ p k, a = .kill p → (s.pc p).inside = some k → W.here s.shared (s.killed p) k →
      W.here s.shared true k) (hs : Sys.Step code s a s') : W.Inv s' := by
  cases hs with
  | call hpc hk =>
    refine h.shift (fun _ _ => rfl) (by rw [hpc]; rfl) rfl ?_ (by simp [Pc.sleeps])
    rintro _ ⟨⟩
    exact W.start _ hk
  | killAsleep hpc =>
    refine h.shift (fun q hq => update_of_ne hq ..) (by rw [hpc]; rfl) rfl ?_
      (by simp [Pc.sleeps])
    rintro _ ⟨⟩
    exact h.entry _ _ (by rw [hpc]; rfl)
  | @kill p => grind [Inv]
  | acquire hpc hlock => exact h.acquire hpc hlock
  | exec hpc hexec => exact h.leave hpc hexec
  | @rouse p c j k io k' q hpc hq hsleep =>
    have hne : p ≠ q := by grind
    have h₁ : W.Inv (s.setPc q (.acq k')) := by
      refine h.shift (fun _ _ => rfl) (by rw [hsleep]; rfl) rfl ?_ (by simp [Pc.sleeps])
      rintro _ ⟨⟩
      exact h.entry _ _ (by rw [hsleep]; rfl)
    have hpc₁ : (s.setPc q (.acq k')).pc p = .wake c j k := by
      simp only [Sys.setPc, update_of_ne hne]
      exact hpc
    refine h₁.advance hpc₁ rfl rfl rfl fun q' c₀ k₀ hs₀ hpend => ?_
    refine hpend.imp_left fun ⟨hc, hj⟩ => ⟨hc, ?_⟩
    rcases Nat.lt_or_eq_of_le hj with hlt | heq
    · exact hlt
    · have hqq : q' = q := Fin.ext (by omega)
      simp [Sys.setPc, hqq, Pc.sleeps] at hs₀
  | @pass p c j k io q hpc hq hdoze hsleep =>
    refine h.advance hpc rfl rfl rfl fun q' c₀ k₀ hs₀ hpend => ?_
    refine hpend.imp_left fun ⟨hc, hj⟩ => ⟨hc, ?_⟩
    rcases Nat.lt_or_eq_of_le hj with hlt | heq
    · exact hlt
    · have hqq : q' = q := Fin.ext (by omega)
      rw [hqq] at hs₀
      cases hpc' : s.pc q with
      | doze c' k' => exact absurd hpc' (hdoze c' k')
      | asleep c' k' =>
        rw [hpc'] at hs₀
        cases hs₀
        exact absurd (hc ▸ hpc') (hsleep k₀)
      | out | acq k' | run k' | wake c' j' k' => simp [hpc', Pc.sleeps] at hs₀
  | @woken p c j k io hpc hj =>
    refine h.advance hpc rfl rfl rfl fun q' c₀ k₀ _ hpend => ?_
    rcases hpend with ⟨-, hle⟩ | ho
    · exact absurd q'.isLt (by omega)
    · exact ho
  | @sleep p c k io hpc =>
    refine h.shift (fun _ _ => rfl) (by rw [hpc]; rfl) rfl ?_ ?_
    · rintro _ ⟨⟩
      exact h.entry _ _ (by rw [hpc]; rfl)
    · intro c₀ k₀ hs₀
      rw [hpc]
      exact hs₀

end

theorem blocked_of_free [DecidableEq χ] {init : σ → Prop} {ok : Sys N σ κ χ → Act N κ ι → Prop}
    (hok : ∀ s p k, ok s (.kill p) → (s.pc p).inside = some k →
      W.here s.shared (s.killed p) k → W.here s.shared true k) {s : Sys N σ κ χ}
    (h : Reachable (Sys.Initial init) ok (Sys.step code) s) (hlock : s.lock = none) {p : Fin N}
    {c : χ} {k : κ} (hp : s.pc p = .asleep c k) : W.blocks s.shared c k := by
  have hinv : W.Inv s := by
    refine h.invariant (fun s hs => ?_) fun s a s' hI ha hs => ?_
    · refine ⟨fun q k hq => ?_, fun q k hq => ?_, fun q k hq => ?_, fun q c k hq => ?_⟩
      all_goals simp [hs.pc q, Pc.inside, Pc.waits, Pc.sleeps] at hq
    · exact hI.step (fun p k heq => hok s p k (heq ▸ ha)) (Sys.step_cases hs)
  refine (hinv.blocked p c k (by rw [hp]; rfl)).resolve_right ?_
  rintro ⟨q, hq, -⟩
  rw [hlock] at hq
  cases hq

end Wakes

end Xv6.Monitor

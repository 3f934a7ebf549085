import Xv6.Log.Basic
import Xv6.Lib.Replay

/-!
Crash atomicity of the redo log.

A transaction changes buffers and records their block numbers; `commit` then writes the
log blocks, the header, the home blocks and the empty header, one disk write at a time. A
crash keeps a prefix of the writes that were issued and loses the memory; the next boot
runs `recover_from_log`, which may itself crash at any of its writes.

The invariant of a crashed disk `d` is `Pending D d`: the header on `d` names some home
blocks, the log block of each holds what `D` has there, and every other home block already
holds what `D` has. Each single write of `commit` and of the recovery keeps `Pending`, and
the write of the non-empty header is the one that replaces `D` by `D` with the transaction
applied.
-/

namespace Xv6.Log

open List

variable {i j : ℕ} {c : ℕ → Block} {lh : List ℕ} {ws : List (ℕ × Block)}

def InLog (start size b : ℕ) : Prop := start ≤ b ∧ b < start + size

/-- The blocks a transaction logs, with their new contents: what the
checks of `log_write` admit, less the repetitions it absorbs. -/
structure Txn (start size : ℕ) where
  updates : List (ℕ × Block)
  nodup : (updates.map Prod.fst).Nodup
  fits : updates.length ≤ LOGSIZE
  room : updates.length ≤ size - 1
  home : ∀ w ∈ updates, ¬InLog start size w.1
  word : ∀ w ∈ updates, w.1 < 2 ^ 32

namespace Txn

variable {start size : ℕ}

def header (t : Txn start size) : List ℕ :=
  t.updates.foldl (fun lh w => absorb lh w.1) []

def buffers (t : Txn start size) (m : Bio) : Bio :=
  t.updates.foldl (fun m w => (m.setData w.1 w.2).bpin w.1) m

def run (t : Txn start size) (m : Bio) : Bio := commitBio start t.header (t.buffers m)

/-- What the transaction means: its new contents, in place. -/
def apply (t : Txn start size) (d : ℕ → Block) : ℕ → Block := replay d t.updates

end Txn

def issued (m m' : Bio) : List (ℕ × Block) := m'.writes.drop m.writes.length

inductive World
  | up (m : Bio)
  | down (d : ℕ → Block)

/-- The worlds that transactions, crashes and recoveries lead to from the
disk `d₀`, with the transactions whose `write_head` reached the disk. A
crash keeps any prefix of the writes that were issued. -/
inductive Reach (start size : ℕ) (d₀ : ℕ → Block) : World → List (Txn start size) → Prop
  | boot : Reach start size d₀ (.up (.boot d₀)) []
  | commit {m ts} (t : Txn start size) (h : Reach start size d₀ (.up m) ts) :
      Reach start size d₀ (.up (t.run m)) (ts ++ [t])
  | crash {m ts ws} (t : Txn start size) (h : Reach start size d₀ (.up m) ts)
      (hws : ws <+: issued m (t.run m)) :
      Reach start size d₀ (.down (replay m.disk ws))
        (if start ∈ ws.map Prod.fst then ts ++ [t] else ts)
  | recoverCrash {d ts ws} (h : Reach start size d₀ (.down d) ts)
      (hws : ws <+: issued (.boot d) (recoverFromLog start (.boot d))) :
      Reach start size d₀ (.down (replay d ws)) ts
  | recover {d ts} (h : Reach start size d₀ (.down d) ts) :
      Reach start size d₀ (.up (recoverFromLog start (.boot d))) ts

/-! ### What the loops write -/

/-- `m'` comes from `m` by writing `ws` through the cache, in order. -/
structure Wrote (m m' : Bio) (ws : List (ℕ × Block)) : Prop where
  writes : m'.writes = m.writes ++ ws
  disk : m'.disk = replay m.disk ws
  cache : m'.cache = replay m.cache ws

namespace Wrote

variable {m m' m'' : Bio} {ws ws' : List (ℕ × Block)}

theorem refl (m : Bio) : Wrote m m [] := ⟨by simp, rfl, rfl⟩

theorem trans (h : Wrote m m' ws) (h' : Wrote m' m'' ws') : Wrote m m'' (ws ++ ws') where
  writes := by rw [h'.writes, h.writes, append_assoc]
  disk := by rw [h'.disk, h.disk, replay_append]
  cache := by rw [h'.cache, h.cache, replay_append]

theorem store (m : Bio) (b : ℕ) (d : Block) : Wrote m ((m.setData b d).bwrite b) [(b, d)] where
  writes := by simp
  disk := by simp
  cache := by simp

theorem bunpin (h : Wrote m m' ws) (b : ℕ) : Wrote m (m'.bunpin b) ws := ⟨h.1, h.2, h.3⟩

theorem issued_eq (h : Wrote m m' ws) : issued m m' = ws := by
  rw [issued, h.writes, drop_left]

end Wrote

/-- The log blocks `write_log` writes when the cache holds `c`. -/
def logImage (start : ℕ) (c : ℕ → Block) : ℕ → List ℕ → List (ℕ × Block)
  | _, [] => []
  | tail, b :: bs => (start + tail + 1, c b) :: logImage start c (tail + 1) bs

/-- The home blocks `install_trans` writes when the cache holds `c`. -/
def homeImage (start : ℕ) (c : ℕ → Block) : ℕ → List ℕ → List (ℕ × Block)
  | _, [] => []
  | tail, b :: bs => (b, c (start + tail + 1)) :: homeImage start c (tail + 1) bs

variable {start size : ℕ}

theorem logImage_congr {c' : ℕ → Block} (h : ∀ b ∈ bs, c b = c' b) (tail : ℕ) :
    logImage start c tail bs = logImage start c' tail bs := by
  induction bs generalizing tail with
  | nil => rfl
  | cons b bs ih => grind [logImage]

theorem homeImage_congr (c c' : ℕ → Block) {tail : ℕ}
    (h : ∀ i, tail ≤ i → i < tail + bs.length → c (start + i + 1) = c' (start + i + 1)) :
    homeImage start c tail bs = homeImage start c' tail bs := by
  induction bs generalizing tail with
  | nil => rfl
  | cons b bs ih => grind [homeImage]

theorem keys_logImage {tail x : ℕ} (hx : x ∈ (logImage start c tail bs).map Prod.fst) :
    start + tail < x ∧ x ≤ start + tail + bs.length := by
  induction bs generalizing tail with
  | nil => simp [logImage] at hx
  | cons b bs ih => grind [logImage]

theorem keys_homeImage (start : ℕ) (c : ℕ → Block) (tail : ℕ) (bs : List ℕ) :
    (homeImage start c tail bs).map Prod.fst = bs := by
  induction bs generalizing tail with
  | nil => rfl
  | cons b bs ih => simp [homeImage, ih]

theorem getElem_homeImage (start : ℕ) (c : ℕ → Block) (tail : ℕ) (hi : i < bs.length) :
    (homeImage start c tail bs)[i]? = some (bs[i], c (start + (tail + i) + 1)) := by
  induction bs generalizing tail i with
  | nil => simp at hi
  | cons b bs ih => grind [homeImage]

/-- `write_log` reads only home blocks and writes only log blocks. -/
theorem writeLogFrom_wrote (m : Bio) (tail : ℕ) (hhome : ∀ b ∈ bs, ¬InLog start size b)
    (hroom : tail + bs.length < size) :
    Wrote m (writeLogFrom start tail bs m) (logImage start m.cache tail bs) := by
  induction bs generalizing m tail with
  | nil => exact .refl m
  | cons b bs ih =>
    simp only [length_cons] at hroom
    have hfirst := Wrote.store m (start + tail + 1) (m.bread b)
    have hrest := ih ((m.setData (start + tail + 1) (m.bread b)).bwrite (start + tail + 1))
      (tail + 1) (fun x hx => hhome x (mem_cons_of_mem _ hx)) (by omega)
    -- the store went to a log block, so the home blocks still to be read are as they were
    have hsame : ∀ x ∈ bs, ((m.setData (start + tail + 1) (m.bread b)).bwrite
        (start + tail + 1)).cache x = m.cache x := by
      intro x hx
      have hx' := hhome x (mem_cons_of_mem _ hx)
      have hne : x ≠ start + tail + 1 := by
        rintro rfl
        exact hx' ⟨by omega, by omega⟩
      simp [Function.update_of_ne hne]
    rw [logImage_congr hsame] at hrest
    exact hfirst.trans hrest

/-- `install_trans` reads only log blocks and writes only home blocks. -/
theorem installFrom_wrote (m : Bio) (tail : ℕ) (recovering : Bool)
    (hhome : ∀ b ∈ bs, ¬InLog start size b) (hroom : tail + bs.length < size) :
    Wrote m (installFrom start recovering tail bs m) (homeImage start m.cache tail bs) := by
  induction bs generalizing m tail with
  | nil => exact .refl m
  | cons b bs ih =>
    simp only [length_cons] at hroom
    have hb := hhome b mem_cons_self
    let m₁ := (m.setData b (m.bread (start + tail + 1))).bwrite b
    let m₂ := if recovering then m₁ else m₁.bunpin b
    have hfirst : Wrote m m₂ [(b, m.bread (start + tail + 1))] := by
      have hstore := Wrote.store m b (m.bread (start + tail + 1))
      cases recovering
      · exact hstore.bunpin b
      · exact hstore
    have hrest := ih m₂ (tail + 1)
      (fun x hx => hhome x (mem_cons_of_mem _ hx)) (by omega)
    have hsame : ∀ i, tail + 1 ≤ i → i < tail + 1 + bs.length →
        m₂.cache (start + i + 1) = m.cache (start + i + 1) := by
      intro i hi hlt
      have hne : start + i + 1 ≠ b := by
        rintro rfl
        exact hb ⟨by omega, by omega⟩
      rw [hfirst.cache]
      simp [Function.update_of_ne hne]
    rw [homeImage_congr m₂.cache m.cache hsame] at hrest
    exact hfirst.trans hrest

/-! ### The header block -/

theorem headN_putEntries (hb : Block) (i : ℕ) (bs : List ℕ) :
    headN (putEntries hb i bs) = headN hb := by
  induction bs generalizing hb i with
  | nil => rfl
  | cons b bs ih => rw [putEntries, ih, headN, Bytes.getLe_putLe_disjoint _ _ (by omega), headN]

theorem headEntry_putEntries_lt (hb : Block) (bs : List ℕ) (h : j < i) :
    headEntry (putEntries hb i bs) j = headEntry hb j := by
  induction bs generalizing hb i with
  | nil => rfl
  | cons b bs ih => grind [putEntries, headEntry, Bytes.getLe_putLe_disjoint]

theorem headEntry_putEntries (hb : Block) (hfit : 4 + 4 * (i + bs.length) ≤ BSIZE)
    (hword : ∀ b ∈ bs, b < 2 ^ 32) (hj : j < bs.length) :
    headEntry (putEntries hb i bs) (i + j) = bs[j] := by
  induction bs generalizing hb i j with
  | nil => simp at hj
  | cons b bs ih =>
    simp only [length_cons] at hfit hj
    rw [putEntries]
    cases j with
    | zero => grind [headEntry_putEntries_lt, headEntry, Bytes.getLe_putLe_self]
    | succ j =>
      rw [show i + (j + 1) = i + 1 + j by omega,
        ih _ (by omega) (fun x hx => hword x (mem_cons_of_mem _ hx)) (by omega)]
      rfl

def headImage (hb : Block) (lh : List ℕ) : Block := putEntries (hb.putLe 4 0 lh.length) 0 lh

theorem headN_headImage (hb : Block) (hfit : lh.length ≤ LOGSIZE) :
    headN (headImage hb lh) = lh.length := by
  have hlen : lh.length < 256 ^ 4 := lt_of_le_of_lt hfit (by norm_num)
  rw [headImage, headN_putEntries, headN, Bytes.getLe_putLe_self hb (by norm_num) hlen]

theorem headEntry_headImage (hb : Block) (hfit : lh.length ≤ LOGSIZE) (hword : ∀ b ∈ lh, b < 2 ^ 32)
    (hj : j < lh.length) : headEntry (headImage hb lh) j = lh[j] := by
  have hfit' : 4 + 4 * (0 + lh.length) ≤ BSIZE := by grind
  simpa [headImage] using headEntry_putEntries (hb.putLe 4 0 lh.length) hfit' hword hj

theorem writeHead_wrote (start : ℕ) (m : Bio) (lh : List ℕ) :
    Wrote m (writeHead start lh m) [(start, headImage (m.cache start) lh)] :=
  Wrote.store m start _

/-! ### The invariant of a crashed disk -/

/-- The header on `d` names the home blocks `bs`; recovering `d` gives `D`. -/
structure PendingWith (start size : ℕ) (D d : ℕ → Block) (bs : List ℕ) : Prop where
  count : headN (d start) = bs.length
  entry : ∀ i (hi : i < bs.length), headEntry (d start) i = bs[i]
  nodup : bs.Nodup
  home : ∀ b ∈ bs, ¬InLog start size b
  room : bs.length < size
  logged : ∀ i (hi : i < bs.length), d (start + i + 1) = D bs[i]
  installed : ∀ b, ¬InLog start size b → b ∉ bs → d b = D b

/-- Recovering `d` gives `D` on the home blocks. -/
def Pending (start size : ℕ) (D d : ℕ → Block) : Prop := ∃ bs, PendingWith start size D d bs

/-- `d` holds `D` on the home blocks and its log is empty. -/
structure Clean (start size : ℕ) (D d : ℕ → Block) : Prop where
  count : headN (d start) = 0
  installed : ∀ b, ¬InLog start size b → d b = D b

variable {D d : ℕ → Block} {bs : List ℕ}

theorem Clean.pending (hsize : 0 < size) (h : Clean start size D d) : Pending start size D d :=
  ⟨[], by simpa using h.count, by simp, by simp, by simp, by simpa using hsize, by simp,
    fun b hb _ => h.installed b hb⟩

theorem PendingWith.readHead_eq (h : PendingWith start size D d bs) :
    readHead start (.boot d) = bs := by
  refine ext_getElem (by simp [readHead, Bio.bread, Bio.boot, h.count]) fun i h₁ h₂ => ?_
  simpa [readHead, Bio.bread, Bio.boot] using h.entry i h₂

theorem PendingWith.install (h : PendingWith start size D d bs) (hws : ∀ w ∈ ws, w.1 ∈ bs) :
    PendingWith start size D (replay d ws) bs := by
  have hlog : ∀ b, InLog start size b → replay d ws b = d b := by grind [replay_of_notMem, h.home]
  have hstart := hlog start ⟨le_rfl, by have := h.room; omega⟩
  refine ⟨by rw [hstart, h.count], by simpa [hstart] using h.entry, h.nodup, h.home, h.room, ?_, ?_⟩
  · intro i hi
    rw [hlog _ ⟨by omega, by have := h.room; omega⟩, h.logged i hi]
  · grind [replay_of_notMem, h.installed]

theorem PendingWith.installed_all (h : PendingWith start size D d bs) (b : ℕ)
    (hb : ¬InLog start size b) : replay d (homeImage start d 0 bs) b = D b := by
  by_cases hmem : b ∈ bs
  · obtain ⟨i, hi, rfl⟩ := getElem_of_mem hmem
    have hw := mem_of_getElem? (getElem_homeImage start d 0 hi)
    have hnd : ((homeImage start d 0 bs).map Prod.fst).Nodup := by
      rw [keys_homeImage]
      exact h.nodup
    rw [replay_of_mem d hnd hw]
    simpa using h.logged i hi
  · rw [replay_of_notMem d (by rwa [keys_homeImage]), h.installed b hb hmem]

theorem Clean.of_erase (hsize : 0 < size) (hb : Block) (h : ∀ b, ¬InLog start size b → d b = D b) :
    Clean start size D (replay d [(start, headImage hb [])]) := by
  refine ⟨?_, fun b hb' => ?_⟩
  · simpa using headN_headImage hb (by simp : ([] : List ℕ).length ≤ LOGSIZE)
  · have hne : b ≠ start := by
      rintro rfl
      exact hb' ⟨le_rfl, by omega⟩
    rw [replay_of_notMem d (by simpa using hne), h b hb']

/-! ### Installing and erasing -/

def finish (start : ℕ) (d : ℕ → Block) (bs : List ℕ) (hb : Block) : List (ℕ × Block) :=
  homeImage start d 0 bs ++ [(start, headImage hb [])]

theorem PendingWith.finish_prefix (hsize : 0 < size) (h : PendingWith start size D d bs)
    {hb : Block} (hws : ws <+: finish start d bs hb) : Pending start size D (replay d ws) := by
  rcases prefix_append_cases hws with hpre | ⟨t, ht, rfl⟩
  · refine ⟨bs, h.install fun w hw => ?_⟩
    rw [← keys_homeImage start d 0 bs]
    exact mem_map_of_mem (hpre.subset hw)
  · rcases prefix_singleton_cases ht with rfl | rfl
    · rw [append_nil]
      refine ⟨bs, h.install fun w hw => ?_⟩
      rw [← keys_homeImage start d 0 bs]
      exact mem_map_of_mem hw
    · rw [replay_append]
      exact (Clean.of_erase hsize _ h.installed_all).pending hsize

theorem PendingWith.finish_all (hsize : 0 < size) (h : PendingWith start size D d bs)
    (hb : Block) : Clean start size D (replay d (finish start d bs hb)) := by
  rw [finish, replay_append]
  exact Clean.of_erase hsize _ h.installed_all

/-! ### Recovery -/

theorem PendingWith.recover_wrote (h : PendingWith start size D d bs) :
    Wrote (.boot d) (recoverFromLog start (.boot d))
      (finish start d bs (replay d (homeImage start d 0 bs) start)) := by
  have hinst := installFrom_wrote (.boot d) 0 true h.home (by simpa using h.room)
  have hhead := writeHead_wrote start (installFrom start true 0 bs (.boot d)) []
  rw [hinst.cache] at hhead
  rw [recoverFromLog, h.readHead_eq]
  exact hinst.trans hhead

theorem Pending.recover_prefix (hsize : 0 < size) (h : Pending start size D d)
    (hws : ws <+: issued (.boot d) (recoverFromLog start (.boot d))) :
    Pending start size D (replay d ws) := by
  obtain ⟨bs, h⟩ := h
  rw [h.recover_wrote.issued_eq] at hws
  exact h.finish_prefix hsize hws

theorem Pending.recover (hsize : 0 < size) (h : Pending start size D d) :
    Clean start size D (recoverFromLog start (.boot d)).disk ∧
      (recoverFromLog start (.boot d)).cache = (recoverFromLog start (.boot d)).disk := by
  obtain ⟨bs, h⟩ := h
  have hw := h.recover_wrote
  constructor
  · rw [hw.disk]
    exact h.finish_all hsize _
  · rw [hw.disk, hw.cache]
    rfl

/-! ### Commit -/

theorem foldl_absorb (h : (lh ++ bs).Nodup) : bs.foldl absorb lh = lh ++ bs := by
  induction bs generalizing lh with
  | nil => simp
  | cons b bs ih =>
    have hb : b ∉ lh := fun hmem =>
      (nodup_append.mp h).2.2 b hmem b mem_cons_self rfl
    rw [foldl_cons, absorb_of_notMem hb, ih (by simpa using h), append_assoc,
      singleton_append]

namespace Txn

variable (t : Txn start size)

def keys : List ℕ := t.updates.map Prod.fst

theorem header_eq : t.header = t.keys := by
  rw [header, keys, ← foldl_map]
  exact foldl_absorb t.nodup

theorem keys_home : ∀ b ∈ t.keys, ¬InLog start size b := by
  intro b hb
  obtain ⟨w, hw, rfl⟩ := mem_map.mp hb
  exact t.home w hw

theorem keys_word : ∀ b ∈ t.keys, b < 2 ^ 32 := by
  intro b hb
  obtain ⟨w, hw, rfl⟩ := mem_map.mp hb
  exact t.word w hw

theorem length_keys : t.keys.length = t.updates.length := length_map _

theorem keys_room (hsize : 0 < size) : 0 + t.keys.length < size := by
  have := t.room
  rw [length_keys]
  omega

theorem buffers_eq (m : Bio) : (t.buffers m).cache = replay m.cache t.updates ∧
    (t.buffers m).disk = m.disk ∧ (t.buffers m).writes = m.writes := by
  rw [buffers]
  generalize t.updates = us
  induction us generalizing m with
  | nil => exact ⟨rfl, rfl, rfl⟩
  | cons w us ih => exact ih ((m.setData w.1 w.2).bpin w.1)

end Txn

theorem replay_logImage (start tail : ℕ) (d c : ℕ → Block) (hi : i < bs.length) :
    replay d (logImage start c tail bs) (start + (tail + i) + 1) = c bs[i] := by
  induction bs generalizing d tail i with
  | nil => simp at hi
  | cons b bs ih =>
    rw [logImage, replay_cons]
    cases i with
    | zero =>
      rw [replay_of_notMem _ fun hmem => by have := keys_logImage hmem; omega]
      simp
    | succ i =>
      simp only [length_cons, Nat.add_lt_add_iff_right] at hi
      rw [show tail + (i + 1) = tail + 1 + i by omega, ih (tail + 1) _ hi]
      rfl

def record (start : ℕ) (c : ℕ → Block) (bs : List ℕ) (hb : Block) : List (ℕ × Block) :=
  logImage start c 0 bs ++ [(start, headImage hb bs)]

theorem replay_record {hb : Block} (hi : i < bs.length) :
    replay d (record start c bs hb) (start + i + 1) = c bs[i] := by
  have hlog := replay_logImage start 0 d c hi
  rw [Nat.zero_add] at hlog
  rw [record, replay_append, replay_of_notMem _ (by simp; omega), hlog]

/-- A `commit` leaves the home blocks in the cache as they are and brings
those of the header to the disk. -/
theorem commitBio_home (m : Bio) (hnodup : lh.Nodup) (hhome : ∀ b ∈ lh, ¬InLog start size b)
    (hroom : lh.length < size) {b : ℕ} (hb : ¬InLog start size b) :
    (commitBio start lh m).cache b = m.cache b ∧
      (commitBio start lh m).disk b = if b ∈ lh then m.cache b else m.disk b := by
  by_cases hne : 0 < lh.length
  · let m₁ := writeLogFrom start 0 lh m
    let m₂ := writeHead start lh m₁
    let m₃ := installFrom start false 0 lh m₂
    have hrec : Wrote m m₂ (record start m.cache lh (m₁.cache start)) :=
      (writeLogFrom_wrote m 0 hhome (by omega)).trans (writeHead_wrote start m₁ lh)
    have hinst := installFrom_wrote m₂ 0 false hhome (by omega)
    have hall := hrec.trans (hinst.trans (writeHead_wrote start m₃ []))
    have hstart : b ≠ start := by
      rintro rfl
      exact hb ⟨le_rfl, by omega⟩
    have hrun : commitBio start lh m = writeHead start [] m₃ := by
      rw [commitBio, if_pos hne]
      rfl
    -- of all the writes only those of `install_trans` go to home blocks
    have hreplay : ∀ f : ℕ → Block, replay f (record start m.cache lh (m₁.cache start) ++
        (homeImage start m₂.cache 0 lh ++ [(start, headImage (m₃.cache start) [])])) b =
        if b ∈ lh then m.cache b else f b := by
      intro f
      rw [replay_append, replay_append, replay_of_notMem _ (by simpa using hstart)]
      split
      · rename_i hmem
        obtain ⟨i, hi, rfl⟩ := getElem_of_mem hmem
        have hw := mem_of_getElem? (getElem_homeImage start m₂.cache 0 hi)
        rw [replay_of_mem _ (by rwa [keys_homeImage]) hw, Nat.zero_add, hrec.cache,
          replay_record hi]
      · rw [replay_of_notMem _ (by rwa [keys_homeImage]), record, replay_append,
          replay_of_notMem _ (by simpa using hstart), replay_of_notMem _ fun hk => hb (by
            have := keys_logImage hk
            exact ⟨by omega, by omega⟩)]
    rw [hrun, hall.cache, hall.disk, hreplay, hreplay]
    exact ⟨by split <;> rfl, rfl⟩
  · grind [commitBio]

variable {m : Bio} (t : Txn start size)

theorem Clean.record_pending (hsize : 0 < size) (h : Clean start size D m.disk) (hb : Block) :
    PendingWith start size (t.apply D)
      (replay m.disk (record start (replay m.disk t.updates) t.keys hb)) t.keys := by
  have hfit := t.length_keys ▸ t.fits
  have hroom := t.keys_room hsize
  have hhead : replay m.disk (record start (replay m.disk t.updates) t.keys hb) start =
      headImage hb t.keys := by
    rw [record, replay_append]
    simp
  refine ⟨?_, ?_, t.nodup, t.keys_home, by omega, ?_, ?_⟩
  · rw [hhead, headN_headImage hb hfit]
  · intro i hi
    rw [hhead, headEntry_headImage hb hfit t.keys_word hi]
  · intro i hi
    obtain ⟨w, hw, hkey⟩ := mem_map.mp (getElem_mem hi)
    rw [replay_record hi, ← hkey, Txn.apply, replay_of_mem _ t.nodup hw,
      replay_of_mem _ t.nodup hw]
  · intro b hb' hmem
    have hne : b ≠ start := by
      rintro rfl
      exact hb' ⟨le_rfl, by omega⟩
    rw [record, replay_append, replay_of_notMem _ (by simpa using hne),
      replay_of_notMem _ fun hk => hb' (by have := keys_logImage hk; exact ⟨by omega, by omega⟩),
      h.installed b hb', Txn.apply, replay_of_notMem _ hmem]

theorem Clean.log_prefix (hsize : 0 < size) (h : Clean start size D m.disk)
    (hws : ws <+: logImage start c 0 t.keys) : Clean start size D (replay m.disk ws) := by
  have hroom := t.keys_room hsize
  have hkey : ∀ b ∈ ws.map Prod.fst, start < b ∧ b < start + size := by
    intro b hb
    have hb' := keys_logImage ((hws.map Prod.fst).subset hb)
    omega
  refine ⟨?_, fun b hb => ?_⟩
  · rw [replay_of_notMem _ fun hmem => by have := hkey _ hmem; omega, h.count]
  · rw [replay_of_notMem _ fun hmem => hb ⟨by have := hkey _ hmem; omega, (hkey _ hmem).2⟩,
      h.installed b hb]

theorem Txn.run_wrote (hsize : 0 < size) (hcache : m.cache = m.disk) (hne : 0 < t.keys.length) :
    ∃ hb hb' ws, ws = record start (replay m.disk t.updates) t.keys hb ∧
      Wrote (t.buffers m) (t.run m) (ws ++ finish start (replay m.disk ws) t.keys hb') := by
  obtain ⟨hc, -, -⟩ := t.buffers_eq m
  rw [hcache] at hc
  have hroom := t.keys_room hsize
  let m₁ := writeLogFrom start 0 t.keys (t.buffers m)
  let m₂ := writeHead start t.keys m₁
  let m₃ := installFrom start false 0 t.keys m₂
  let ws := record start (replay m.disk t.updates) t.keys (m₁.cache start)
  have hlog := writeLogFrom_wrote (t.buffers m) 0 t.keys_home hroom
  have hrec : Wrote (t.buffers m) m₂ ws := by
    have hboth := hlog.trans (writeHead_wrote start m₁ t.keys)
    rwa [hc] at hboth
  have hinst : Wrote m₂ m₃ (homeImage start (replay m.disk ws) 0 t.keys) := by
    have hw := installFrom_wrote m₂ 0 false t.keys_home hroom
    rw [homeImage_congr m₂.cache (replay m.disk ws)] at hw
    · exact hw
    · intro i _ hi
      rw [hrec.cache, replay_record (by omega), replay_record (by omega)]
  refine ⟨m₁.cache start, m₃.cache start, ws, rfl, ?_⟩
  have hrun : t.run m = writeHead start [] m₃ := by
    rw [Txn.run, t.header_eq, commitBio, if_pos hne]
    rfl
  rw [hrun]
  exact hrec.trans (hinst.trans (writeHead_wrote start m₃ []))

theorem Txn.run_empty (m : Bio) (h : t.keys.length = 0) : t.run m = m ∧ t.updates = [] := by
  have hnil : t.updates = [] := by rw [← length_eq_zero_iff, ← t.length_keys, h]
  refine ⟨?_, hnil⟩
  rw [Txn.run, t.header_eq, commitBio, if_neg (by omega), Txn.buffers, hnil]
  rfl

/-- Between two transactions: the home blocks hold `D`, the log is empty
and the cache agrees with the disk. -/
structure Settled (start size : ℕ) (D : ℕ → Block) (m : Bio) : Prop where
  clean : Clean start size D m.disk
  cache : m.cache = m.disk

theorem Settled.commit (hsize : 0 < size) (h : Settled start size D m) :
    Settled start size (t.apply D) (t.run m) := by
  rcases Nat.eq_zero_or_pos t.keys.length with h0 | hpos
  · obtain ⟨hrun, hnil⟩ := t.run_empty m h0
    rw [hrun, Txn.apply, hnil]
    exact h
  · obtain ⟨hb, hb', ws, rfl, hw⟩ := t.run_wrote hsize h.cache hpos
    obtain ⟨hc, hd, -⟩ := t.buffers_eq m
    refine ⟨?_, ?_⟩
    · rw [hw.disk, hd, replay_append]
      exact (h.clean.record_pending t hsize hb).finish_all hsize hb'
    · -- the cache was ahead of the disk only at the home blocks, all rewritten by now
      rw [hw.cache, hw.disk, hc, hd, h.cache]
      refine replay_congr fun a ha => replay_of_notMem _ fun hmem => ha ?_
      have hkeys := keys_homeImage start
        (replay m.disk (record start (replay m.disk t.updates) t.keys hb)) 0 t.keys
      rw [finish, map_append, map_append, hkeys]
      exact mem_append_right _ (mem_append_left _ hmem)

theorem Settled.crash (hsize : 0 < size) (h : Settled start size D m) {ws : List (ℕ × Block)}
    (hws : ws <+: issued m (t.run m)) :
    Pending start size (if start ∈ ws.map Prod.fst then t.apply D else D) (replay m.disk ws) := by
  rcases Nat.eq_zero_or_pos t.keys.length with h0 | hpos
  · have hnil : ws = [] := by simpa [(t.run_empty m h0).1, issued] using hws
    simpa [hnil] using h.clean.pending hsize
  · obtain ⟨hb, hb', rs, rfl, hw⟩ := t.run_wrote hsize h.cache hpos
    have hissued : issued m (t.run m) = issued (t.buffers m) (t.run m) := by
      grind [Wrote, issued, t.buffers_eq]
    rw [hissued, hw.issued_eq] at hws
    have hlog : ∀ {l : List (ℕ × Block)}, l <+: logImage start (replay m.disk t.updates) 0 t.keys →
        start ∉ l.map Prod.fst := by
      intro l hl hmem
      have := keys_logImage ((hl.map Prod.fst).subset hmem)
      omega
    have hrec := h.clean.record_pending t hsize hb
    have hmemrec : start ∈ (record start (replay m.disk t.updates) t.keys hb).map Prod.fst := by
      grind [record]
    rcases prefix_append_cases hws with hpre | ⟨s, hs, rfl⟩
    · rcases prefix_append_cases hpre with hpre | ⟨s, hs, rfl⟩
      · rw [if_neg (hlog hpre)]
        exact (h.clean.log_prefix t hsize hpre).pending hsize
      · rcases prefix_singleton_cases hs with rfl | rfl
        · rw [append_nil, if_neg (hlog prefix_rfl)]
          exact (h.clean.log_prefix t hsize prefix_rfl).pending hsize
        · grind [Pending, record]
    · rw [if_pos (by rw [map_append]; exact mem_append_left _ hmemrec), replay_append]
      exact hrec.finish_prefix hsize hs

/-! ### Whole runs -/

def applyAll (ts : List (Txn start size)) (d : ℕ → Block) : ℕ → Block :=
  ts.foldl (fun d t => t.apply d) d

theorem applyAll_snoc (ts : List (Txn start size)) (d : ℕ → Block) :
    applyAll (ts ++ [t]) d = t.apply (applyAll ts d) := by
  simp [applyAll]

/-- What holds of a world in which exactly `D` is committed. -/
def World.Holds (start size : ℕ) (D : ℕ → Block) : World → Prop
  | .up m => Settled start size D m
  | .down d => Pending start size D d

theorem Reach.holds {d₀ : ℕ → Block} (hsize : 0 < size) (hempty : headN (d₀ start) = 0)
    {w : World} {ts : List (Txn start size)} (h : Reach start size d₀ w ts) :
    w.Holds start size (applyAll ts d₀) := by
  induction h with
  | boot => exact ⟨⟨hempty, fun _ _ => rfl⟩, rfl⟩
  | commit t _ ih =>
    rw [applyAll_snoc]
    exact Settled.commit t hsize ih
  | @crash m ts ws t _ hws ih => grind [World.Holds, Settled.crash, applyAll_snoc]
  | recoverCrash _ hws ih => exact Pending.recover_prefix hsize ih hws
  | recover _ ih =>
    have hrec := Pending.recover hsize ih
    exact ⟨hrec.1, hrec.2⟩

/-- **Crash atomicity.** Whatever transactions ran, wherever they and the
recoveries after them crashed, a running kernel finds on the home blocks
exactly the transactions whose header reached the disk, applied in order,
and an empty log. -/
theorem crash_atomic (hsize : 0 < size) {d₀ : ℕ → Block} (hempty : headN (d₀ start) = 0)
    {m : Bio} {ts : List (Txn start size)} (h : Reach start size d₀ (.up m) ts) :
    (∀ b, ¬InLog start size b → m.disk b = applyAll ts d₀ b) ∧ headN (m.disk start) = 0 := by
  have hm := h.holds hsize hempty
  exact ⟨hm.clean.installed, hm.clean.count⟩

def onesTxn : Txn 2 30 where
  updates := [(50, fun _ => 1)]
  nodup := by decide
  fits := by decide
  room := by decide
  home := by simp [InLog]
  word := by simp

theorem crash_atomic_onesTxn :
    (recoverFromLog 2 (.boot (onesTxn.run (.boot fun _ => zeroBlock)).disk)).disk 50 =
      fun _ => 1 := by
  have hzero : headN zeroBlock = 0 := by decide
  have hreach : Reach 2 30 (fun _ => zeroBlock) (.up (recoverFromLog 2 (.boot (replay
      (onesTxn.run (.boot fun _ => zeroBlock)).disk [])))) [onesTxn] :=
    .recover (.crash onesTxn (.commit onesTxn .boot) nil_prefix)
  rw [replay_nil] at hreach
  rw [(crash_atomic (by decide) hzero hreach).1 50 (by simp [InLog])]
  simp [applyAll, Txn.apply, onesTxn]

end Xv6.Log

import Xv6.Fs.Nodes
import Xv6.Fs.Scan
import Xv6.Fs.Sysfile

/-!
Directories and path names on nodes.

A directory's content is its sequence of entries; `Node.lookup` is the entry
that `dirlookup` finds and `Node.slot` the one that `dirlink` fills. A path is
followed on the nodes by `walk`, up to its last element by `walkParent`, and
the specifications of `namei` and `nameiparent` say that they return what
these find.
-/

namespace Xv6

open List

/-! ### Entries -/

namespace Node

variable (nd : Node) (name : Name)

def entries : ℕ := nd.data.length / DESIZE

def Matches (e : ℕ) : Prop := nd.inum e ≠ 0 ∧ nd.name e = cname name

instance (e : ℕ) : Decidable (nd.Matches name e) := inferInstanceAs (Decidable (_ ∧ _))

def lookup : Option ℕ := (range nd.entries).find? fun e => nd.Matches name e

/-- The first entry that is not in use, or else the next one. -/
def slot : ℕ := ((range nd.entries).find? fun e => nd.inum e = 0).getD nd.entries

variable {nd name} {e : ℕ}

theorem lookup_eq_some : nd.lookup name = some e ↔
    e < nd.entries ∧ nd.Matches name e ∧ ∀ e' < e, ¬nd.Matches name e' := by
  simp only [lookup, find?_range_eq_some, decide_eq_true_eq, mem_range,
    Bool.not_eq_eq_eq_not, Bool.not_true, decide_eq_false_iff_not]
  tauto

theorem lookup_eq_none : nd.lookup name = none ↔ ∀ e < nd.entries, ¬nd.Matches name e := by
  simp [lookup]

theorem slot_eq (hle : e ≤ nd.entries) (hfree : e < nd.entries → nd.inum e = 0)
    (hused : ∀ e' < e, nd.inum e' ≠ 0) : nd.slot = e := by
  unfold slot
  rcases Nat.lt_or_eq_of_le hle with hlt | rfl
  · rw [find?_range_eq_some.mpr, Option.getD_some]
    exact ⟨by simpa using hfree hlt, by simpa using hlt, fun j hj => by simpa using hused j hj⟩
  · rw [find?_range_eq_none.mpr, Option.getD_none]
    exact fun j hj => by simpa using hused j hj

theorem entries_mul_le : nd.entries * DESIZE ≤ nd.data.length := Nat.div_mul_le_self ..

theorem lt_entries (h : (e + 1) * DESIZE ≤ nd.data.length) : e < nd.entries :=
  (Nat.le_div_iff_mul_le (by norm_num)).mpr h

theorem entries_le (h : nd.data.length ≤ e * DESIZE) : nd.entries ≤ e := by
  refine (Nat.div_le_iff_le_mul_add_pred (by norm_num)).mpr ?_
  rw [Nat.mul_comm]
  omega

theorem fits (hsize : DESIZE ∣ nd.data.length) (h : e * DESIZE < nd.data.length) :
    (e + 1) * DESIZE ≤ nd.data.length := by
  obtain ⟨m, hm⟩ := hsize
  rw [hm, Nat.mul_comm] at h ⊢
  exact Nat.mul_le_mul_left _ (Nat.lt_of_mul_lt_mul_left h)

theorem inum_of_le (h : nd.data.length ≤ e * DESIZE) : nd.inum e = 0 := by
  rw [inum, dirent, drop_of_length_le h]
  rfl

theorem slot_le : nd.slot ≤ nd.entries := by
  unfold slot
  cases hfind : (range nd.entries).find? fun e => nd.inum e = 0 with
  | none => rfl
  | some e => grind

end Node

variable {sb : Superblock} {E : Stop → Prop} {b : Abs} {h : List (ℕ × ℕ)} {d l : List ℕ}
  {dp i : ℕ} {nd : Node} {name : Name}

section At

variable {s : Fs} {leak : Set ℕ}

theorem At.scans {stop : Stop} {e : ℕ} (hat : At sb dp i nd s) (hlow : Low sb leak none s.view s)
    (hE : E stop ∨ DESIZE ∣ nd.data.length) (he : e * DESIZE < (s.itable dp).d.size) :
    Scans E stop dp nd.dirent s e := by
  have hlen := hlow.length_le hat.node
  have hsize := (Disk.shows hat.node).size
  have hoff : e * DESIZE < 2 ^ 32 := by
    rw [hat.copy, hsize] at he
    norm_num at he hlen ⊢
    omega
  refine (readi_spec hlow hat.copy (Disk.type_of_node hat.node) hoff (by norm_num)).mono ?_
  rintro r s' ⟨rfl, hr⟩
  obtain rfl := hr.eq trivial
  rw [hat.copy] at he ⊢
  refine ⟨rfl, fun hshort => hE.resolve_right fun hwhole => hshort ?_, fun hfull => ?_⟩
  · have hfit := Node.fits hwhole (hsize ▸ he)
    rw [Disk.readResult_inside (by rwa [hsize, ← Nat.succ_mul]) (by norm_num at hfit hlen ⊢; omega)]
  · unfold Disk.readResult at hfull ⊢
    split at hfull
    · norm_num at hfull
    · rename_i hacc
      rw [if_neg hacc]
      simp only at hfull ⊢
      have hfit : min DESIZE ((s'.view.ino i).size - e * DESIZE) = DESIZE := by exact_mod_cast hfull
      rw [hfit, Disk.bytes_eq_content _ _ (by omega), Disk.content_of_node hat.node]
      exact ⟨rfl, by rw [Nat.succ_mul]; omega⟩

/-- `dirlookup` goes on with the entry that `Node.lookup` finds. -/
theorem At.dirlookup (hat : At sb dp i nd s) (hlow : Low sb leak none s.view s)
    (ht : nd.type = T_DIR) (hE : E (.panic .dirlookupRead) ∨ DESIZE ∣ nd.data.length)
    {Q : Option (ℕ × ℕ) → Fs → Prop} (hnone : nd.lookup name = none → Q none s)
    (hsome : ∀ e, nd.lookup name = some e →
      wp E (iget (s.itable dp).dev (nd.inum e)) (fun ip s' => Q (some (ip, e * DESIZE)) s') s) :
    wp E (dirlookup dp name) Q s := by
  have hshow := hat.shows
  refine dirlookup_wp (fun e he _ => hat.scans hlow hE he)
    (fun n hn hno => hnone (Node.lookup_eq_none.mpr fun e he => hno e ?_))
    (fun e hfit hm hno => hsome e (Node.lookup_eq_some.mpr ⟨Node.lt_entries ?_, hm, hno⟩))
    (hshow.type.trans ht)
  · exact he.trans_le (Node.entries_le (hshow.size ▸ hn))
  · rwa [← hshow.size]

theorem At.dirlinkLoop (hat : At sb dp i nd s) (hlow : Low sb leak none s.view s)
    (hE : E (.panic .dirlinkRead) ∨ DESIZE ∣ nd.data.length) :
    wp E (dirlinkLoop dp ((s.itable dp).d.size / DESIZE + 1) 0)
      (fun off s' => s' = s ∧ off = nd.slot * DESIZE) s := by
  have hscan := dirlinkLoop_wp (e := 0) (fun e he => hat.scans hlow hE he) (lt_fuel_mul _)
    (by simp) (by simp)
  rw [Nat.zero_mul] at hscan
  refine hscan.mono ?_
  rintro off s' ⟨hs', n, rfl, hle, hused, hfree⟩
  rw [hat.shows.size] at hle hfree
  have hn : n ≤ nd.entries := (Nat.le_div_iff_mul_le (by norm_num)).mpr hle
  refine ⟨hs', congrArg (· * DESIZE) (Node.slot_eq hn (fun hlt => hfree ?_) hused).symm⟩
  exact (Nat.mul_lt_mul_of_pos_right hlt (by norm_num)).trans_le Node.entries_mul_le

end At

def Found (b : Abs) (h : List (ℕ × ℕ)) (d l : List ℕ) (nd : Node) (name : Name) :
    Option (ℕ × ℕ) → Abs → Prop
  | none => fun g => St b h d l g ∧ nd.lookup name = none
  | some (ip, off) => fun g => ∃ e, St b ((ip, nd.inum e) :: h) d l g ∧ off = e * DESIZE ∧
      nd.lookup name = some e

/-- What a lookup may stop at: a directory must be one, of whole entries, and
there must be an entry of the inode table for what is found. -/
structure CanLook (sb : Superblock) (E : Stop → Prop) (b : Abs) (h : List (ℕ × ℕ)) (nd : Node) :
    Prop where
  dir : E (.panic .dirlookupNotDir) ∨ nd.type = T_DIR
  whole : E (.panic .dirlookupRead) ∨ DESIZE ∣ nd.data.length
  room : E (.panic .igetNoInodes) ∨ b.Room sb h.length

theorem CanLook.of_admits (hE : Admits E) : CanLook sb E b h nd :=
  ⟨.inl (hE _ rfl), .inl (hE _ rfl), .inl (hE _ rfl)⟩

theorem dirlookup_spec (hE : CanLook sb E b h nd) (hk : Locked b h d l dp i nd) :
    Spec sb E (St b h d l) (dirlookup dp name) fun r g =>
      Found b h d l nd name r g ∧ nd.type = T_DIR := by
  intro s hwf hst
  have hat := hk.at hwf hst
  by_cases ht : nd.type = T_DIR
  · refine hat.dirlookup hwf.low ht hE.whole (fun hnone => ⟨hwf, ⟨hst, hnone⟩, ht⟩) fun e he => ?_
    have hrange := hwf.dirs i nd hat.node ht e
    have hdev : (s.itable dp).dev = ROOTDEV := hwf.tab.dev dp hat.ref
    rw [hdev]
    refine (iget_spec hE.room hrange s hwf hst).mono ?_
    rintro ip s' ⟨hwf', hst'⟩
    exact ⟨hwf', ⟨e, hst', rfl, he⟩, ht⟩
  · unfold dirlookup
    rw [wp_bind, wp_inode, if_pos (hat.shows.type ▸ ht)]
    exact hE.dir.resolve_right ht

theorem St.has_locked {g : Abs} {k j : ℕ} (hst : St b ((k, j) :: h) d l g)
    (hl : ∀ k ∈ l, ∃ i, Has b h d k i) (hk : k ∈ l) : Has b h d k j := by
  obtain ⟨i, hi⟩ := hl k hk
  have hi' : Has b ((k, j) :: h) d k i := hi.imp_left (mem_cons_of_mem _)
  have hj : (g.ent k).inum = j := hst.held (k, j) (by simp)
  rwa [← hj, (hst.has hi').2]

theorem dirlink_spec {j : ℕ} (hE : Admits E) (hph : b.phase = some true)
    (hk : Locked b h d l dp i nd) (hl : ∀ k ∈ l, ∃ i, Has b h d k i) (hj : j < sb.ninodes) :
    Spec sb E (St b h d l) (dirlink dp name j) fun r g =>
      (nd.type = T_DIR ∧ nd.lookup name = none ∧ ∃ o : ℕ → ℕ,
        r = 0 ∧ St ((b.setNode i (some (nd.setDirent nd.slot (direntBytes j name)))).setOwn i o)
            h d l g ∨
          r = -1 ∧ Padded (b.own i) o ∧ St (b.setOwn i o) h d l g) ∨
      (r = -1 ∧ nd.lookup name ≠ none ∧ ∃ b', Quiet b h d b' ∧ St b' h d l g) := by
  refine (dirlookup_spec (.of_admits hE) hk).bind fun r => Tri.assume fun ht => ?_
  cases r with
  | some r =>
    obtain ⟨ip, off⟩ := r
    refine Tri.exists_pre fun e => ?_
    refine Tri.from_pre (c := ip ∈ l → Has b h d ip (nd.inum e))
      (fun s _ hst => hst.1.has_locked hl) fun hip => ?_
    refine Tri.assume fun hfound =>
      (iput_spec (.inl hE) hip hph).bind fun _ => Tri.pure fun g hg => ?_
    obtain ⟨b', hput, hst⟩ := hg
    exact .inr ⟨rfl, by simp [hfound.2], b', hput.quiet, hst⟩
  | none =>
    refine Tri.assume fun hnone => ?_
    have hslot : Spec sb E (St b h d l)
        (do dirlinkLoop dp ((← inode dp).d.size / DESIZE + 1) 0)
        fun off g => St b h d l g ∧ off = nd.slot * DESIZE := by
      intro s hwf hst
      rw [wp_bind, wp_inode]
      refine ((hk.at hwf hst).dirlinkLoop hwf.low (.inl (hE _ rfl))).mono ?_
      rintro off s' ⟨rfl, rfl⟩
      exact ⟨hwf, hst, rfl⟩
    rw [← bind_assoc]
    refine hslot.bind fun off => Tri.assume ?_
    rintro rfl
    refine Tri.from_pre (c := j < 2 ^ 16) (fun s hwf _ => hj.trans_le hwf.geo.inum) fun hj16 => ?_
    have hrange : direntInum (direntBytes j name) < sb.ninodes := by grind [direntInum_direntBytes]
    have hfit := (Nat.mul_le_mul_right DESIZE nd.slot_le).trans nd.entries_mul_le
    refine (writei_dirent hE hph hk hfit (length_direntBytes j name) hrange).bind fun r => ?_
    refine Tri.pure fun g hg => .inl ⟨ht, hnone, ?_⟩
    obtain ⟨o, ⟨rfl, hst⟩ | ⟨hr, hpad, hst⟩⟩ := hg
    · exact ⟨o, .inl ⟨by simp, hst⟩⟩
    · exact ⟨o, .inr ⟨if_pos hr, hpad, hst⟩⟩

/-! ### Paths -/

def Abs.entry (b : Abs) (i : ℕ) (name : Name) : Option ℕ :=
  match b.node i with
  | some nd => if nd.type = T_DIR then (nd.lookup name).map nd.inum else none
  | none => none

def Abs.walk (b : Abs) : ℕ → List Name → Option ℕ
  | i, [] => some i
  | i, name :: names => (b.entry i name).bind fun j => b.walk j names

/-- The directory that all names but the last lead to, and the last name. -/
def Abs.walkParent (b : Abs) : ℕ → List Name → Option (ℕ × Name)
  | _, [] => none
  | i, name :: names =>
    match b.node i with
    | some nd =>
      if nd.type = T_DIR then
        if names = [] then some (i, name)
        else (b.entry i name).bind fun j => b.walkParent j names
      else none
    | none => none

theorem Abs.walkParent_congr {b b' : Abs} (h : b'.node = b.node) (i : ℕ) (names : List Name) :
    b'.walkParent i names = b.walkParent i names := by
  induction names generalizing i with
  | nil => rfl
  | cons name names ih => simp only [walkParent, entry, h, ih]

def Abs.start (b : Abs) (p : ℕ) (path : List UInt8) : Option ℕ :=
  if path.head? = some slash then some ROOTINO else (b.proc p).cwd.map fun k => (b.ent k).inum

def Abs.target (b : Abs) (p : ℕ) (path : List UInt8) : Option ℕ :=
  (b.start p path).bind (b.walk · (elems path))

def Abs.parent (b : Abs) (p : ℕ) (path : List UInt8) : Option (ℕ × Name) :=
  (b.start p path).bind (b.walkParent · (elems path))

theorem Abs.parent_congr {b b' : Abs} (hnode : b'.node = b.node) (hproc : b'.proc = b.proc)
    (hent : b'.ent = b.ent) (p : ℕ) (path : List UInt8) : b'.parent p path = b.parent p path := by
  have hwalk : b'.walkParent = b.walkParent := by grind [Abs.walkParent_congr]
  rw [parent, parent, start, start, hwalk, hproc, hent]

def Abs.Named (b : Abs) : Prop :=
  ∀ i nd e, b.node i = some nd → nd.type = T_DIR → nd.inum e ≠ 0 → b.node (nd.inum e) ≠ none

section Holding

variable {b' : Abs} {h' : List (ℕ × ℕ)} {k : ℕ}

theorem Has.mono (hk : Has b h d k i) (hh : ∀ x ∈ h, x ∈ h') : Has b h' d k i :=
  hk.imp_left (hh _)

theorem Calm.mono (hcalm : Calm b h d) (hh : ∀ x ∈ h, x ∈ h') : Calm b h' d := fun i nd hnd h0 =>
  (hcalm i nd hnd h0).imp fun _ hk => hk.mono hh

theorem Quiet.less (hq : Quiet b h' d b') (hh : ∀ x ∈ h, x ∈ h') : Quiet b h d b' :=
  { hq with
    keep := fun k i hk => hq.keep k i (hk.mono hh)
    calm := fun hcalm => hq.calm (hcalm.mono hh) }

end Holding

/-- A lookup led to nothing, or to an inode to which the call now holds a
reference. If nothing was about to go, `target` says which. -/
def Led {α : Type} (b : Abs) (h : List (ℕ × ℕ)) (d : List ℕ) (target : Option (ℕ × α)) :
    Option (ℕ × α) → Abs → Prop
  | none => fun g => ∃ b', Quiet b h d b' ∧ St b' h d [] g ∧ (Calm b h d → target = none)
  | some (ip, a) => fun g => ∃ b' i, Quiet b h d b' ∧ St b' ((ip, i) :: h) d [] g ∧
      (Calm b h d → target = some (i, a))

theorem Led.trans {α : Type} {b' g : Abs} {r target target' : Option (ℕ × α)}
    (hq : Quiet b h d b') (htarget : b' = b → target' = target) (hled : Led b' h d target' r g) :
    Led b h d target r g := by
  have heq : Calm b h d → Calm b' h d ∧ target' = target := fun hc => by
    have hb := hq.calm hc
    exact ⟨hb ▸ hc, htarget hb⟩
  cases r with
  | none =>
    obtain ⟨b'', hq', hst, hcalm⟩ := hled
    exact ⟨b'', hq.trans hq', hst, fun hc => (heq hc).2 ▸ hcalm (heq hc).1⟩
  | some r =>
    obtain ⟨b'', i, hq', hst, hcalm⟩ := hled
    exact ⟨b'', i, hq.trans hq', hst, fun hc => (heq hc).2 ▸ hcalm (heq hc).1⟩

section Namei

variable {α : Type} {ip : ℕ} {Q : Option α → Abs → Prop}

theorem namex_fail (hE : Admits E ∨ ¬Gone b h d i) (hph : b.phase = some true)
    (hQ : ∀ b' g, Quiet b h d b' → St b' h d [] g → Q none g) :
    Spec sb E (St b ((ip, i) :: h) d [ip]) (do iunlockput ip; return (none : Option α)) Q := by
  refine (iunlockput_spec hE hph).bind fun _ => Tri.pure fun g hg => ?_
  obtain ⟨b', hput, hst⟩ := hg
  exact hQ b' g hput.quiet hst

/-- A step of `namex` that looks up a name and goes on with `f`. -/
theorem namex_next {f : ℕ → M (Option α)} (hlook : CanLook sb E b ((ip, i) :: h) nd)
    (hE : Admits E ∨ Calm b h d) (hph : b.phase = some true)
    (hk : Locked b ((ip, i) :: h) d [ip] ip i nd)
    (hnone : nd.lookup name = none → ∀ b' g, Quiet b h d b' → St b' h d [] g → Q none g)
    (hnext : ∀ e b' next, nd.lookup name = some e → Quiet b h d b' →
      Spec sb E (St b' ((next, nd.inum e) :: h) d []) (f next) Q) :
    Spec sb E (St b ((ip, i) :: h) d [ip]) (do
      match ← dirlookup ip name with
      | none => do
          iunlockput ip
          return none
      | some (next, _) => do
          iunlockput ip
          f next) Q := by
  refine (dirlookup_spec hlook hk).bind fun r => Tri.assume fun _ => ?_
  cases r with
  | none => exact Tri.assume fun hno => namex_fail (hE.imp_right Calm.not_gone) hph (hnone hno)
  | some r =>
    obtain ⟨next, off⟩ := r
    refine Tri.exists_pre fun e => Tri.assume fun hfound => ?_
    have hswap : Spec sb E (St b ((next, nd.inum e) :: (ip, i) :: h) d [ip]) (iunlockput ip)
        fun _ g => ∃ b', Put b ((next, nd.inum e) :: h) d i true b' ∧
          St b' ((next, nd.inum e) :: h) d [] g :=
      (iunlockput_spec (hE.imp_right fun hcalm =>
        (hcalm.mono fun _ hx => mem_cons_of_mem _ hx).not_gone) hph).pre
        fun g hg => hg.perm (.swap _ _ _) (.refl _)
    refine hswap.bind fun _ => Tri.exists_pre fun b' => ?_
    refine Tri.from_pre (fun _ _ hg => hg.1) fun hput => ?_
    refine (hnext e b' next hfound.2 (hput.quiet.less ?_)).pre fun g hg => hg.2
    exact fun x hx => mem_cons_of_mem _ hx

end Namei

section Namei

variable {ip : ℕ} {names : List Name}

theorem Abs.entry_eq (hnode : b.node i = some nd) (ht : nd.type = T_DIR) :
    b.entry i name = (nd.lookup name).map nd.inum := by
  rw [entry, hnode]
  exact if_pos ht

def Abs.Whole (b : Abs) : Prop :=
  ∀ i nd, b.node i = some nd → nd.type = T_DIR → DESIZE ∣ nd.data.length

structure Follows (sb : Superblock) (E : Stop → Prop) (b : Abs) (h : List (ℕ × ℕ)) (d : List ℕ) :
    Prop where
  blocked : E .blocked ∨ ∀ k, (b.ent k).locked = false
  whole : E (.panic .dirlookupRead) ∨ b.Whole
  room : E (.panic .igetNoInodes) ∨ b.Room sb (h.length + 1)
  calm : Admits E ∨ Calm b h d
  named : E (.panic .ilockNoType) ∨ Calm b h d ∧ b.Named

namespace Follows

variable {b' : Abs}

theorem of_admits (hE : Admits E) (hno : E (.panic .ilockNoType) ∨ Calm b h d ∧ b.Named) :
    Follows sb E b h d :=
  ⟨.inl (hE _ rfl), .inl (hE _ rfl), .inl (hE _ rfl), .inl hE, hno⟩

theorem quiet (hf : Follows sb E b h d) (hq : Quiet b h d b') : Follows sb E b' h d where
  blocked := hq.ent ▸ hf.blocked
  whole := hf.whole.imp_right fun hw i nd hnd => hw i nd (hq.sub i nd hnd)
  room := hf.room.imp_right fun hr => by rwa [Abs.Room, hq.ent]
  calm := hf.calm.imp_right fun hc => by rwa [hq.calm hc]
  named := hf.named.imp_right fun ⟨hc, hn⟩ => by
    rw [hq.calm hc]
    exact ⟨hc, hn⟩

theorem look (hf : Follows sb E b h d) (hnode : b.node i = some nd) (ht : nd.type = T_DIR) :
    CanLook sb E b ((ip, i) :: h) nd :=
  ⟨.inr ht, hf.whole.imp_right fun hw => hw i nd hnode ht, hf.room⟩

theorem next {e : ℕ} (hf : Follows sb E b h d) (hq : Quiet b h d b') (hnode : b.node i = some nd)
    (ht : nd.type = T_DIR) (hfound : nd.lookup name = some e) :
    E (.panic .ilockNoType) ∨ b'.node (nd.inum e) ≠ none := by
  refine hf.named.imp_right fun ⟨hcalm, hnamed⟩ => ?_
  rw [hq.calm hcalm]
  exact hnamed i nd e hnode ht (Node.lookup_eq_some.mp hfound).2.1.1

theorem unlocked (hf : Follows sb E b h d) (k : ℕ) :
    E .blocked ∨ (b.ent k).locked = false ∧ k ∉ [] :=
  hf.blocked.imp_right fun hfree => ⟨hfree k, not_mem_nil⟩

end Follows

theorem nameiLoop_spec (hf : Follows sb E b h d) (hph : b.phase = some true)
    (hno : E (.panic .ilockNoType) ∨ names = [] ∨ b.node i ≠ none) :
    Spec sb E (St b ((ip, i) :: h) d []) (nameiLoop ip names) fun r =>
      Led b h d ((b.walk i names).map (·, ())) (r.map (·, ())) := by
  induction names generalizing b ip i with
  | nil => exact Tri.pure fun g hg => ⟨b, i, .refl b h d, hg, fun _ => rfl⟩
  | cons name names ih =>
    have hheld : Has b ((ip, i) :: h) d ip i := .inl (by simp)
    refine (ilock_spec (hf.unlocked ip) hheld
      (hno.imp_right fun hn => hn.resolve_left (by simp))).bind fun _ => ?_
    refine Tri.assume fun ⟨nd, hnode⟩ => ?_
    have hk : Locked b ((ip, i) :: h) d [ip] ip i nd := ⟨by simp, hheld, hnode⟩
    refine (inode_spec hk).bind fun en => Tri.assume fun ⟨_, _, hshow⟩ => ?_
    rw [hshow.type]
    refine Tri.ite (fun ht => namex_fail (hf.calm.imp_right Calm.not_gone) hph fun b' g hq hst =>
      ⟨b', hq, hst, fun _ => ?_⟩) fun ht => ?_
    · simp [Abs.walk, Abs.entry, hnode, ht]
    rw [not_not] at ht
    have hentry : b.entry i name = (nd.lookup name).map nd.inum := Abs.entry_eq hnode ht
    refine namex_next (hf.look hnode ht) hf.calm hph hk
      (fun hnone b' g hq hst => ⟨b', hq, hst, fun _ => ?_⟩)
      fun e b' next hfound hq => ?_
    · simp [Abs.walk, hentry, hnone]
    · refine (ih (hf.quiet hq) (hq.phase.trans hph) ((hf.next hq hnode ht hfound).imp_right
        .inr)).mono fun r g
        hled => hled.trans hq ?_
      rintro rfl
      simp [Abs.walk, hentry, hfound]

theorem nameiparentLoop_spec (hf : Follows sb E b h d) (hph : b.phase = some true)
    (hno : E (.panic .ilockNoType) ∨ b.node i ≠ none) :
    Spec sb E (St b ((ip, i) :: h) d []) (nameiparentLoop ip names)
      (Led b h d (b.walkParent i names)) := by
  induction names generalizing b ip i with
  | nil =>
    refine (iput_spec (hf.calm.imp_right Calm.not_gone) (by simp) hph).bind fun _ =>
      Tri.pure fun g hg => ?_
    obtain ⟨b', hput, hst⟩ := hg
    exact ⟨b', hput.quiet, hst, fun _ => rfl⟩
  | cons name names ih =>
    have hheld : Has b ((ip, i) :: h) d ip i := .inl (by simp)
    refine (ilock_spec (hf.unlocked ip) hheld hno).bind fun _ => ?_
    refine Tri.assume fun ⟨nd, hnode⟩ => ?_
    have hk : Locked b ((ip, i) :: h) d [ip] ip i nd := ⟨by simp, hheld, hnode⟩
    refine (inode_spec hk).bind fun en => Tri.assume fun ⟨_, _, hshow⟩ => ?_
    rw [hshow.type]
    refine Tri.ite (fun ht => namex_fail (hf.calm.imp_right Calm.not_gone) hph fun b' g hq hst =>
      ⟨b', hq, hst, fun _ => ?_⟩) fun ht => ?_
    · simp [Abs.walkParent, hnode, ht]
    rw [not_not] at ht
    refine Tri.ite (fun hlast => ?_) fun hmore => ?_
    · refine iunlock_spec.bind fun _ => Tri.pure fun g hg => ⟨b, i, .refl b h d, hg.1, fun _ => ?_⟩
      simp [Abs.walkParent, hnode, ht, hlast]
    have hentry : b.entry i name = (nd.lookup name).map nd.inum := Abs.entry_eq hnode ht
    refine namex_next (hf.look hnode ht) hf.calm hph hk
      (fun hnone b' g hq hst => ⟨b', hq, hst, fun _ => ?_⟩)
      fun e b' next hfound hq => ?_
    · simp [Abs.walkParent, hnode, ht, hmore, hentry, hnone]
    · refine (ih (hf.quiet hq) (hq.phase.trans hph) (hf.next hq hnode ht hfound)).mono fun r g
        hled => hled.trans hq ?_
      rintro rfl
      simp [Abs.walkParent, hnode, ht, hmore, hentry, hfound]

variable {p : ℕ} {path : List UInt8}

def KeepsCwd (b : Abs) (d : List ℕ) (p : ℕ) : Prop :=
  ∀ k, (b.proc p).cwd = some k → (d.count k : ℤ) < (b.ent k).ref

theorem namexStart_spec (hroom : E (.panic .igetNoInodes) ∨ b.Room sb h.length)
    (hnull : E .nullPointer ∨ (b.proc p).cwd ≠ none) (hcwd : KeepsCwd b d p) :
    Spec sb E (St b h d l) (namexStart p path) fun ip g =>
      ∃ i, St b ((ip, i) :: h) d l g ∧ b.start p path = some i := by
  refine Tri.ite (fun hroot => ?_) fun hroot => ?_
  · refine Tri.from_pre (c := ROOTINO < sb.ninodes) (fun s hwf _ => hwf.geo.root) fun hlt => ?_
    exact (iget_spec hroom hlt).mono fun ip g hg => ⟨ROOTINO, hg, if_pos hroot⟩
  · refine Tri.get_bind fun s _ hst => ?_
    rw [show s.proc = b.proc from hst.proc]
    split
    · rename_i k hk
      refine (idup_spec (.inr ⟨hcwd k hk, rfl⟩)).mono fun ip g hg => ⟨(b.ent k).inum, ?_, ?_⟩
      · rw [hg.2]
        exact hg.1
      · rw [Abs.start, if_neg hroot, hk]
        rfl
    · grind [Tri.throw]

def Starts (E : Stop → Prop) (b : Abs) (p : ℕ) (path : List UInt8) : Prop :=
  ∀ i, b.start p path = some i → E (.panic .ilockNoType) ∨ b.node i ≠ none

theorem Follows.room_le (hf : Follows sb E b h d) : E (.panic .igetNoInodes) ∨ b.Room sb h.length :=
  hf.room.imp_right (.imp_left (by omega))

theorem namei_spec (hf : Follows sb E b h d) (hph : b.phase = some true)
    (hnull : E .nullPointer ∨ (b.proc p).cwd ≠ none) (hcwd : KeepsCwd b d p)
    (hno : Starts E b p path) :
    Spec sb E (St b h d []) (namei p path) fun r =>
      Led b h d ((b.target p path).map (·, ())) (r.map (·, ())) := by
  refine (namexStart_spec hf.room_le hnull hcwd).bind fun ip => Tri.exists_pre fun i =>
    Tri.assume fun hi => ?_
  rw [Abs.target, hi]
  exact nameiLoop_spec hf hph ((hno i hi).imp_right .inr)

theorem nameiparent_spec (hf : Follows sb E b h d) (hph : b.phase = some true)
    (hnull : E .nullPointer ∨ (b.proc p).cwd ≠ none) (hcwd : KeepsCwd b d p)
    (hno : Starts E b p path) :
    Spec sb E (St b h d []) (nameiparent p path) (Led b h d (b.parent p path)) := by
  refine (namexStart_spec hf.room_le hnull hcwd).bind fun ip => Tri.exists_pre fun i =>
    Tri.assume fun hi => ?_
  rw [Abs.parent, hi]
  exact nameiparentLoop_spec hf hph (hno i hi)

end Namei

end Xv6

import Mathlib

/-!
`read_until_match` (`user/ok.h`): read from the standard input up to a given string.

The input comes in the pieces that the calls of `read` deliver; after the last one
`read` returns 0, or -1 if `fails`. What is kept of the string is how many of its
characters were just seen. A character that does not fit sends the search back to the
beginning, so a string that overlaps with itself can be missed; it is found in every input
if and only if the character after an overlap is always the one that did not fit.
-/

namespace Xv6.Ok

open List
open Function (update update_self update_of_ne)

abbrev READ_CACHE_SIZE : ℕ := 512

/-- The buffer, how much of it is in use, and how much of the string was seen. -/
structure Scan where
  buf : ℕ → UInt8
  idx : ℕ
  pos : ℕ

def Scan.store (s : Scan) (sz : ℕ) (c : UInt8) : Scan :=
  if s.idx < sz - 1 then { s with buf := update s.buf s.idx c, idx := s.idx + 1 } else s

def scanCache (mat : List UInt8) (sz : ℕ) : List UInt8 → Scan → Scan
  | [], s => s
  | c :: cache, s =>
    let s := s.store sz c
    if mat[s.pos]? = some c then
      if s.pos + 1 = mat.length then { s with pos := s.pos + 1 }
      else scanCache mat sz cache { s with pos := s.pos + 1 }
    else if mat[0]? = some c then
      if 1 = mat.length then { s with pos := 1 } else scanCache mat sz cache { s with pos := 1 }
    else scanCache mat sz cache { s with pos := 0 }

def readLoop (mat : List UInt8) (sz : ℕ) (fails : Bool) : List (List UInt8) → Scan → Scan × Bool
  | [], s => (s, fails)
  | cache :: reads, s =>
    if cache = [] then (s, false)
    else
      let s := scanCache mat sz cache s
      if s.pos = mat.length then (s, false) else readLoop mat sz fails reads s

def readUntilMatch (mat : Option (List UInt8)) (buf : ℕ → UInt8) (sz : ℕ)
    (reads : List (List UInt8)) (fails : Bool) : ℤ × (ℕ → UInt8) :=
  match mat with
  | none => (-1, if sz > 0 then update buf 0 0 else buf)
  | some mat =>
    if sz = 0 then (-1, buf)
    else if sz ≤ mat.length then (-1, update buf 0 0)
    else
      let r := readLoop mat sz fails reads ⟨update buf (sz - 1) 0, 0, 0⟩
      if r.2 then (-1, update r.1.buf 0 0)
      else if r.1.pos < mat.length then (-1, update r.1.buf r.1.idx 0)
      else (0, update r.1.buf (r.1.idx - mat.length) 0)

/-- The string is found exactly if it occurs in the input; and the buffer then holds what
comes before its first occurrence, if there is room for both. -/
def FindsFirst (mat : List UInt8) (buf : ℕ → UInt8) (sz : ℕ) (reads : List (List UInt8)) : Prop :=
  ((readUntilMatch (some mat) buf sz reads false).1 = 0 ↔ mat <:+: reads.flatten) ∧
  ∀ t, t ++ mat <+: reads.flatten →
    (∀ t', t' ++ mat <+: reads.flatten → t.length ≤ t'.length) →
    t.length + mat.length ≤ sz - 1 →
    (range t.length).map (readUntilMatch (some mat) buf sz reads false).2 = t ∧
      (readUntilMatch (some mat) buf sz reads false).2 t.length = 0

/-- Where the beginning of the string also ends what was seen of it, the same character
comes next. -/
def Restarts (mat : List UInt8) : Prop :=
  ∀ i k, 0 < i → i < k → k < mat.length → mat.take i <:+ mat.take k → mat[i]? = mat[k]?

variable {mat seen text : List UInt8} {sz : ℕ} {s : Scan} {c : UInt8} {buf : ℕ → UInt8}
  {reads : List (List UInt8)}

theorem Scan.store_pos (s : Scan) (sz : ℕ) (c : UInt8) : (s.store sz c).pos = s.pos := by
  rw [Scan.store]
  split_ifs <;> rfl

/-! ### The pieces do not matter -/

theorem scanCache_append (hmat : mat ≠ []) (hpos : s.pos ≠ mat.length) (u v : List UInt8) :
    scanCache mat sz (u ++ v) s = if (scanCache mat sz u s).pos = mat.length
      then scanCache mat sz u s else scanCache mat sz v (scanCache mat sz u s) := by
  induction u generalizing s with
  | nil => exact (if_neg hpos).symm
  | cons c u ih =>
    simp only [cons_append, scanCache, s.store_pos]
    by_cases hc : mat[s.pos]? = some c
    · rw [if_pos hc, if_pos hc]
      by_cases hend : s.pos + 1 = mat.length
      · rw [if_pos hend, if_pos hend, if_pos hend]
      · rw [if_neg hend, if_neg hend]
        exact ih hend
    rw [if_neg hc, if_neg hc]
    by_cases h0 : mat[0]? = some c
    · rw [if_pos h0, if_pos h0]
      by_cases hend : 1 = mat.length
      · rw [if_pos hend, if_pos hend, if_pos hend]
      · rw [if_neg hend, if_neg hend]
        exact ih hend
    · rw [if_neg h0, if_neg h0]
      exact ih (length_pos_iff.mpr hmat).ne

theorem readLoop_eq (hmat : mat ≠ []) (hreads : ∀ r ∈ reads, r ≠ []) (hpos : s.pos ≠ mat.length) :
    readLoop mat sz false reads s = (scanCache mat sz reads.flatten s, false) := by
  induction reads generalizing s with
  | nil => rfl
  | cons cache reads ih =>
    obtain ⟨hne, htail⟩ := forall_mem_cons.mp hreads
    rw [readLoop, if_neg hne, flatten_cons, scanCache_append hmat hpos]
    by_cases hend : (scanCache mat sz cache s).pos = mat.length
    · rw [if_pos hend, if_pos hend]
    · rw [if_neg hend, if_neg hend]
      exact ih htail hend

theorem readUntilMatch_eq (hmat : mat ≠ []) (hsz : mat.length < sz) (hreads : ∀ r ∈ reads, r ≠ []) :
    readUntilMatch (some mat) buf sz reads false =
      let s := scanCache mat sz reads.flatten ⟨update buf (sz - 1) 0, 0, 0⟩
      if s.pos < mat.length then (-1, update s.buf s.idx 0)
      else (0, update s.buf (s.idx - mat.length) 0) := by
  have hlen : 0 < mat.length := length_pos_iff.mpr hmat
  rw [readUntilMatch, if_neg (by omega), if_neg (by omega), readLoop_eq hmat hreads hlen.ne]
  rfl

/-! ### A string that is always found -/

/-- What is known when `seen` was read: the buffer holds as much of it as fits, the string
has not ended before, and `pos` is the greatest length of a beginning of the string that
`seen` ends with. -/
structure Seen (mat : List UInt8) (sz : ℕ) (seen : List UInt8) (s : Scan) : Prop where
  idx : s.idx = min seen.length (sz - 1)
  buf : ∀ i < s.idx, seen[i]? = some (s.buf i)
  fresh : ∀ w, w <+: seen → w ≠ seen → ¬mat <:+ w
  le : s.pos ≤ mat.length
  suffix : mat.take s.pos <:+ seen
  greatest : ∀ k ≤ mat.length, mat.take k <:+ seen → k ≤ s.pos

/-- The search stops in `text`, which comes after `seen`: at the first end of the string, or
at the end of the text. -/
def Stops (mat : List UInt8) (sz : ℕ) (seen text : List UInt8) (s : Scan) : Prop :=
  ∃ u v, text = u ++ v ∧ Seen mat sz (seen ++ u) s ∧ (s.pos = mat.length ∨ v = [])

theorem take_succ_suffix {k : ℕ} (hk : k < mat.length) :
    mat.take (k + 1) <:+ seen ++ [c] ↔ mat[k]? = some c ∧ mat.take k <:+ seen := by
  rw [← take_concat_get hk, concat_eq_append, ← reverse_prefix,
    reverse_append, reverse_append, ← reverse_prefix]
  simp [hk]

namespace Seen

theorem suffix_iff (h : Seen mat sz seen s) : mat <:+ seen ↔ s.pos = mat.length := by
  constructor
  · intro hmat
    exact h.le.antisymm (h.greatest _ le_rfl (by rwa [take_length]))
  · intro hpos
    have hsuffix := h.suffix
    rwa [hpos, take_length] at hsuffix

theorem next (h : Seen mat sz seen s) (hlt : s.pos < mat.length) {pos : ℕ} (hle : pos ≤ mat.length)
    (hsuffix : mat.take pos <:+ seen ++ [c])
    (hgreatest : ∀ k < mat.length, mat[k]? = some c → mat.take k <:+ seen → k < pos) :
    Seen mat sz (seen ++ [c]) { s.store sz c with pos := pos } := by
  have hidx := h.idx
  refine ⟨?_, fun i hi => ?_, fun w hw hne => ?_, hle, hsuffix, fun k hkm hk => ?_⟩
  · show (s.store sz c).idx = _
    rw [Scan.store, length_append, length_singleton]
    split_ifs
    · show s.idx + 1 = _
      omega
    · omega
  · change i < (s.store sz c).idx at hi
    rw [Scan.store] at hi ⊢
    split_ifs at hi ⊢
    · show _ = some (update s.buf s.idx c i)
      rcases Nat.lt_succ_iff_lt_or_eq.mp hi with hlt | rfl
      · rw [update_of_ne hlt.ne, getElem?_append_left (by omega)]
        exact h.buf i hlt
      · rw [update_self, show s.idx = seen.length by omega, getElem?_concat_length]
    · rw [getElem?_append_left (by omega)]
      exact h.buf i hi
  · have hw := (prefix_concat_iff.mp hw).resolve_left hne
    by_cases heq : w = seen
    · rw [heq, h.suffix_iff]
      omega
    · exact h.fresh w hw heq
  · cases k with
    | zero => exact Nat.zero_le _
    | succ k =>
      obtain ⟨hc, hk⟩ := (take_succ_suffix hkm).mp hk
      exact hgreatest k hkm hc hk

theorem scanCache (h : Seen mat sz seen s) (hlt : s.pos < mat.length) (hmat : Restarts mat)
    (cache : List UInt8) : Stops mat sz seen cache (scanCache mat sz cache s) := by
  induction cache generalizing seen s with
  | nil => exact ⟨[], [], rfl, by rwa [append_nil], .inr rfl⟩
  | cons c cache ih =>
    have hgo {pos : ℕ} (hs : Seen mat sz (seen ++ [c]) { s.store sz c with pos := pos })
        (hpos : pos < mat.length) : Stops mat sz seen (c :: cache)
          (Ok.scanCache mat sz cache { s.store sz c with pos := pos }) := by
      obtain ⟨u, v, rfl, hs, hend⟩ := ih hs hpos
      exact ⟨c :: u, v, rfl, by rwa [append_cons], hend⟩
    simp only [Ok.scanCache, s.store_pos]
    by_cases hc : mat[s.pos]? = some c
    · have hs : Seen mat sz (seen ++ [c]) { s.store sz c with pos := s.pos + 1 } :=
        h.next hlt hlt ((take_succ_suffix hlt).mpr ⟨hc, h.suffix⟩)
          fun k hk _ hsuffix => Nat.lt_succ_of_le (h.greatest k hk.le hsuffix)
      rw [if_pos hc]
      split_ifs with hend
      · exact ⟨[c], cache, rfl, hs, .inl hend⟩
      · exact hgo hs (by omega)
    rw [if_neg hc]
    -- a shorter beginning would go on with the character that did not fit
    have hzero : ∀ k < mat.length, mat[k]? = some c → mat.take k <:+ seen → k = 0 := by
      intro k hk hkc hsuffix
      have hle := h.greatest k hk.le hsuffix
      by_contra hpos
      have hne : k ≠ s.pos := by
        rintro rfl
        exact hc hkc
      have hnext := hmat k s.pos (by omega) (by omega) hlt
        (suffix_of_suffix_length_le hsuffix h.suffix (by simp; omega))
      exact hc (hnext ▸ hkc)
    by_cases h0 : mat[0]? = some c
    · have hs : Seen mat sz (seen ++ [c]) { s.store sz c with pos := 1 } :=
        h.next hlt (by omega) ((take_succ_suffix (by omega)).mpr ⟨h0, nil_suffix⟩)
          fun k hk hkc hsuffix => (hzero k hk hkc hsuffix).trans_lt Nat.zero_lt_one
      rw [if_pos h0]
      split_ifs with hend
      · exact ⟨[c], cache, rfl, hs, .inl hend⟩
      · exact hgo hs (by omega)
    · rw [if_neg h0]
      refine hgo (h.next hlt (Nat.zero_le _) nil_suffix fun k hk hkc hsuffix => ?_) (by omega)
      rw [hzero k hk hkc hsuffix] at hkc
      exact absurd hkc h0

end Seen

theorem Restarts.findsFirst (h : Restarts mat) (hmat : mat ≠ []) (hsz : mat.length < sz)
    (hreads : ∀ r ∈ reads, r ≠ []) : FindsFirst mat buf sz reads := by
  have hlen : 0 < mat.length := length_pos_iff.mpr hmat
  have hstart : Seen mat sz [] ⟨update buf (sz - 1) 0, 0, 0⟩ := by
    refine ⟨by simp, by simp, by simp, Nat.zero_le _, nil_suffix, fun k hkm hk => ?_⟩
    rw [suffix_nil, take_eq_nil_iff] at hk
    exact (hk.resolve_right hmat).le
  obtain ⟨u, v, huv, hs, hend⟩ := hstart.scanCache hlen h reads.flatten
  rw [FindsFirst, readUntilMatch_eq hmat hsz hreads]
  generalize scanCache mat sz reads.flatten ⟨update buf (sz - 1) 0, 0, 0⟩ = s at hs hend ⊢
  rw [nil_append] at hs
  have hfull := hs.suffix_iff
  -- nothing that ends in the string is shorter
  have hshort : ∀ w, mat <:+ w → w <+: u ++ v → u <+: w := by
    intro w hw hpre
    rcases prefix_or_prefix_of_prefix hpre (prefix_append u v) with hwu | huw
    · by_cases heq : w = u
      · rw [heq]
      · exact absurd hw (hs.fresh w hwu heq)
    · exact huw
  rw [huv]
  have hfound : mat <:+: u ++ v → s.pos = mat.length := by
    rintro ⟨x, y, heq⟩
    refine hend.elim id fun hv => hfull.mp ?_
    have hx := hshort _ (suffix_append x mat) ⟨y, heq⟩
    rw [hv, append_nil] at heq
    rw [hx.eq_of_length_le (heq ▸ (prefix_append _ y).length_le)]
    exact suffix_append x mat
  refine ⟨⟨fun h => ?_, fun hin => ?_⟩, fun t ht hmin hroom => ?_⟩
  · have hpos : ¬s.pos < mat.length := fun hpos => by
      rw [if_pos hpos] at h
      cases h
    have hu := hfull.mpr (hs.le.antisymm (not_lt.mp hpos))
    exact hu.isInfix.trans (prefix_append u v).isInfix
  · rw [if_neg (by rw [hfound hin]; omega)]
  · have hpos := hfound ((suffix_append t mat).isInfix.trans ht.isInfix)
    obtain ⟨t', ht'⟩ := hfull.mpr hpos
    have hle := hmin t' (ht' ▸ prefix_append u v)
    obtain rfl : u = t ++ mat := by
      refine (hshort _ (suffix_append t mat) ht).eq_of_length_le ?_
      rw [← ht', length_append, length_append]
      omega
    have hidx := hs.idx
    rw [length_append] at hidx
    rw [if_neg (by omega), show s.idx - mat.length = t.length by omega]
    refine ⟨ext_getElem (by simp) fun i hi hit => ?_, update_self ..⟩
    have hbuf := hs.buf i (by omega)
    rw [getElem?_append_left hit, getElem?_eq_getElem hit] at hbuf
    rw [getElem_map, getElem_range]
    exact (update_of_ne hit.ne ..).trans (Option.some.inj hbuf).symm

/-! ### A string that is missed -/

theorem scanCache_take {n : ℕ} (hn : s.pos + n < mat.length) :
    (scanCache mat sz ((mat.drop s.pos).take n) s).pos = s.pos + n := by
  induction n generalizing s with
  | zero => rfl
  | succ n ih =>
    have hlt : s.pos < mat.length := by omega
    rw [drop_eq_getElem_cons hlt, take_succ_cons]
    simp only [scanCache, s.store_pos]
    rw [if_pos (getElem?_eq_getElem hlt), if_neg (by omega)]
    have hrest := @ih { s.store sz mat[s.pos] with pos := s.pos + 1 } (by simp; omega)
    rw [hrest]
    exact Nat.add_right_comm ..

theorem scanCache_pos_le (mat : List UInt8) (sz : ℕ) (text : List UInt8) (s : Scan) :
    (scanCache mat sz text s).pos ≤ s.pos + text.length := by
  induction text generalizing s with
  | nil => exact le_rfl
  | cons c text ih =>
    simp only [scanCache, s.store_pos, length_cons]
    split_ifs
    · exact Nat.add_le_add_left (Nat.le_add_left ..) _
    · refine (ih _).trans ?_
      simp only
      omega
    · simp only
      omega
    · refine (ih _).trans ?_
      simp only
      omega
    · refine (ih _).trans ?_
      simp only
      omega

theorem scanCache_misfit (hc : mat[s.pos]? ≠ some c) :
    (scanCache mat sz (c :: text) s).pos ≤ 1 + text.length := by
  simp only [scanCache, s.store_pos]
  rw [if_neg hc]
  split_ifs
  · exact Nat.le_add_right ..
  · exact scanCache_pos_le ..
  · exact (scanCache_pos_le ..).trans (Nat.add_le_add_right (Nat.zero_le 1) _)

theorem scanCache_misses {i k : ℕ} (hi : 0 < i) (hik : i < k) (hk : k < mat.length)
    (hne : mat[i]? ≠ mat[k]?) (hpos : s.pos = 0) :
    (scanCache mat sz (mat.take k ++ mat.drop i) s).pos < mat.length := by
  have htake : (scanCache mat sz (mat.take k) s).pos = k := by
    have := @scanCache_take mat sz s k (by omega)
    rwa [hpos, drop_zero, Nat.zero_add] at this
  have him : i < mat.length := by omega
  rw [scanCache_append (ne_nil_of_length_pos (by omega)) (by omega), htake,
    if_neg (by omega), drop_eq_getElem_cons him]
  refine (scanCache_misfit ?_).trans_lt ?_
  · rw [htake, ← getElem?_eq_getElem him]
    exact hne.symm
  · rw [length_drop]
    omega

/-- The string is found, as it should be, in every input and however this comes in pieces,
if and only if the search may begin again at a character that does not fit. -/
theorem readUntilMatch_first {mat : List UInt8} {sz : ℕ} (buf : ℕ → UInt8) (hmat : mat ≠ [])
    (h0 : 0 ∉ mat) (hsz : mat.length < sz) :
    (∀ reads : List (List UInt8), (∀ r ∈ reads, r ≠ [] ∧ r.length ≤ READ_CACHE_SIZE ∧ 0 ∉ r) →
      FindsFirst mat buf sz reads) ↔ Restarts mat := by
  constructor
  · intro h i k hi hik hk hsuffix
    by_contra hne
    obtain ⟨t, ht⟩ := hsuffix
    -- the input: what was seen of the string, and then what is missing behind the overlap
    have hinput : mat.take k ++ mat.drop i = t ++ mat := by
      rw [← ht, append_assoc, take_append_drop]
    have hflat : ((mat.take k ++ mat.drop i).map fun c => [c]).flatten =
        mat.take k ++ mat.drop i := by
      rw [← flatMap_def, flatMap_singleton']
    have hreads : ∀ r ∈ (mat.take k ++ mat.drop i).map fun c => [c],
        r ≠ [] ∧ r.length ≤ READ_CACHE_SIZE ∧ 0 ∉ r := by
      intro r hr
      obtain ⟨c, hc, rfl⟩ := mem_map.mp hr
      refine ⟨by simp, by simp, fun hzero => h0 ?_⟩
      rw [mem_singleton.mp hzero]
      exact (mem_append.mp hc).elim mem_of_mem_take mem_of_mem_drop
    have hfound := (h _ hreads).1.mpr
      (by rw [hflat, hinput]; exact (suffix_append t mat).isInfix)
    rw [readUntilMatch_eq hmat hsz fun r hr => (hreads r hr).1, hflat] at hfound
    have hmiss := @scanCache_misses mat sz ⟨update buf (sz - 1) 0, 0, 0⟩ i k hi hik hk hne rfl
    simp only [if_pos hmiss] at hfound
    cases hfound
  · intro h reads hreads
    exact h.findsFirst hmat hsz fun r hr => (hreads r hr).1

theorem readUntilMatch_first_ok : FindsFirst [111, 107] (fun _ => 0) 8 [[97, 98, 111], [107, 99]] :=
  (readUntilMatch_first (fun _ => 0) (by decide) (by decide) (by decide)).mpr
    (fun i k hi hik hk => absurd hk (by simp; omega)) _ (by decide)

/-- The string `aab` is missed in `aaab`. -/
theorem readUntilMatch_overlap :
    [97, 97, 98] <:+: [97, 97, 97, 98] ∧
      (readUntilMatch (some [97, 97, 98]) (fun _ => 0) 8 [[97, 97, 97, 98]] false).1 = -1 := by
  decide

end Xv6.Ok

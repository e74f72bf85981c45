import OsSessional.Lib.Threads
import OsSessional.Storage.Store

/-!
# One buffer for a block

Invariants of the cache over all interleavings of its sessions: the links form one list of all
buffers, no block has two of them, the count of a buffer is the number of sessions that refer to it
and its lock has one holder. With them the cache is the block store.
-/

namespace OsSessional.Storage

open Function (update update_self update_of_ne)

section Chain

variable {n : Nat} {c : Chain n} {i : Fin n} {l m : List (Fin n)}

/-- The buffers of `l` in order, from `head.next` on. -/
def Chain.Lists (c : Chain n) (l : List (Fin n)) : Prop := Round c.next c.prev none (l.map some)

namespace Chain.Lists

theorem nodup (h : c.Lists l) : l.Nodup :=
  List.Nodup.of_map _ (List.nodup_cons.mp (Round.nodup h)).2

private theorem insert (h : c.Lists l) (hi : i ∉ l) : (c.insert i).Lists (i :: l) := by
  have hround := Round.insert (x := some i) h (by simpa using hi)
  have hnext : update c.next (some i) (c.next none) none = c.next none :=
    update_of_ne (by simp) ..
  unfold Chain.Lists Chain.insert
  dsimp only
  rw [List.map_cons, hnext]
  exact hround

private theorem unlink (h : c.Lists (l ++ i :: m)) : (c.unlink i).Lists (l ++ m) := by
  have hround : Round c.next c.prev none (l.map some ++ some i :: m.map some) := by
    simpa [Chain.Lists] using h
  have hself : some i ≠ c.next (some i) := by
    intro heq
    have hlinks := (Links.append.mp hround.links).2
    cases m with
    | nil => simp [hlinks.1] at heq
    | cons j m =>
      have hne : i ≠ j := by
        rintro rfl
        simpa using h.nodup.sublist (List.sublist_append_right l _)
      rw [show c.next (some i) = some j from hlinks.1, Option.some.injEq] at heq
      exact hne heq
  unfold Chain.Lists Chain.unlink
  dsimp only
  rw [List.map_append, update_of_ne hself]
  exact hround.unlink

theorem moveFront (h : c.Lists (l ++ i :: m)) : ((c.unlink i).insert i).Lists (i :: (l ++ m)) := by
  apply h.unlink.insert
  intro hmem
  have hnodup := List.nodup_middle.mp h.nodup
  exact (List.nodup_cons.mp hnodup).1 hmem

private theorem forward (h : c.Lists l) (hall : l.length ≤ n) (ok : Fin n → Bool) :
    walk c.next ok n (c.next none) = l.find? ok := walk_links h.links hall

theorem backward (h : c.Lists l) (hall : l.length ≤ n) (ok : Fin n → Bool) :
    walk c.prev ok n (c.prev none) = l.reverse.find? ok := by
  have hlinks := h.links.reverse
  rw [← List.map_reverse] at hlinks
  exact walk_links hlinks (by simpa using hall)

theorem length_le (h : c.Lists l) : l.length ≤ n := by
  simpa using h.nodup.length_le_card

end Chain.Lists

theorem binit_lists : (Chain.binit (n := n)).Lists (List.finRange n).reverse := by
  have hfold : ∀ (l m : List (Fin n)) (c : Chain n), c.Lists m → (l ++ m).Nodup →
      (l.foldl Chain.insert c).Lists (l.reverse ++ m) := by
    intro l
    induction l with
    | nil => exact fun m c h _ => h
    | cons i l ih =>
      intro m c h hnodup
      have hperm : (l ++ i :: m).Perm (i :: (l ++ m)) := List.perm_middle
      have hmid : (l ++ i :: m).Nodup := hperm.nodup_iff.mpr hnodup
      rw [List.foldl_cons, List.reverse_cons, List.append_assoc]
      refine ih (i :: m) _ (h.insert fun hmem => ?_) hmid
      exact (List.nodup_cons.mp hnodup).1 (List.mem_append_right _ hmem)
  have hempty : Chain.Lists (n := n) ⟨fun _ => none, fun _ => none⟩ [] :=
    ⟨⟨rfl, rfl⟩, by simp⟩
  have hlists := hfold (List.finRange n) [] _ hempty (by simpa using List.nodup_finRange n)
  rw [List.append_nil] at hlists
  exact hlists

end Chain

namespace Place

variable {n : Nat}

/-- The buffer a session refers to. -/
def refers : Place n → Option (Fin n)
  | .idle => none
  | .waiting i => some i
  | .locked i => some i
  | .inIde i => some i
  | .held i _ => some i
  | .leaving i => some i

/-- The buffer whose lock it has. -/
def owns : Place n → Option (Fin n)
  | .locked i => some i
  | .inIde i => some i
  | .held i _ => some i
  | _ => none

end Place

namespace Bcache

variable {n : Nat} {ι : Type} [Fintype ι]

/-- How many sessions refer to buffer `i`. -/
def refs (s : Bcache n ι) (i : Fin n) : Nat :=
  tally (fun _ pl => if Place.refers pl = some i then 1 else 0) s.place

/-- What the sessions agree on. -/
structure Sessions (s : Bcache n ι) : Prop where
  lists : ∃ l, s.chain.Lists l ∧ ∀ i, i ∈ l
  once : ∀ i j, (s.buf i).id = (s.buf j).id → (s.buf i).id.dev ≠ 0 → i = j
  refcnt : ∀ i, (s.buf i).refcnt = s.refs i
  lock : ∀ i p, s.lock i = some p ↔ (s.place p).owns = some i
  asked : ∀ p i, (s.place p).refers = some i → (s.buf i).id.dev ≠ 0

section Steps

variable [DecidableEq ι] {s s' : Bcache n ι} {p : ι} {i : Fin n}

private theorem refs_goto (pl : Place n) (i : Fin n) :
    (s.goto p pl).refs i + (if (s.place p).refers = some i then 1 else 0) =
      s.refs i + (if pl.refers = some i then 1 else 0) :=
  tally_update (fun _ pl => if Place.refers pl = some i then 1 else 0) s.place p pl

omit [DecidableEq ι] in
theorem Sessions.unreferenced (h : s.Sessions) (hzero : (s.buf i).refcnt = 0) (p : ι) :
    (s.place p).refers ≠ some i := by
  intro hp
  have hsum := h.refcnt i
  rw [hzero, refs, tally] at hsum
  have hall := Finset.sum_eq_zero_iff.mp hsum.symm p (Finset.mem_univ p)
  simp [hp] at hall

omit [DecidableEq ι] in
private theorem Sessions.nobody (h : s.Sessions) (hlock : s.lock i = none) (p : ι) :
    (s.place p).owns ≠ some i := by
  intro hp
  rw [(h.lock i p).mpr hp] at hlock
  contradiction

omit [DecidableEq ι] in
private theorem refs_congr (hrefers : ∀ q, (s'.place q).refers = (s.place q).refers) (j : Fin n) :
    s'.refs j = s.refs j := tally_congr _ fun q => by rw [hrefers]

omit [DecidableEq ι] in
private theorem Sessions.congr (h : s.Sessions) (hid : ∀ j, (s'.buf j).id = (s.buf j).id)
    (hcnt : ∀ j, (s'.buf j).refcnt = (s.buf j).refcnt) (hlock : s'.lock = s.lock)
    (hchain : s'.chain = s.chain) (hrefers : ∀ q, (s'.place q).refers = (s.place q).refers)
    (howns : ∀ q, (s'.place q).owns = (s.place q).owns) : s'.Sessions where
  lists := by
    rw [hchain]
    exact h.lists
  once j k := by
    rw [hid, hid]
    exact h.once j k
  refcnt j := by
    rw [hcnt, refs_congr hrefers]
    exact h.refcnt j
  lock j q := by
    rw [hlock, howns]
    exact h.lock j q
  asked q j := by
    rw [hrefers, hid]
    exact h.asked q j

omit [Fintype ι] in
private theorem update_place (q : ι) {pl : Place n} {β : Type} {f : Place n → β}
    (h : f pl = f (s.place p)) : f (update s.place p pl q) = f (s.place q) := by
  by_cases hq : q = p
  · rw [hq, update_self, h]
  · rw [update_of_ne hq]

omit [Fintype ι] [DecidableEq ι] in
theorem update_buf (j : Fin n) {b : Buf} {β : Type} {f : Buf → β} (h : f b = f (s.buf i)) :
    f (update s.buf i b j) = f (s.buf j) := by
  by_cases hj : j = i
  · rw [hj, update_self, h]
  · rw [update_of_ne hj]

private theorem Sessions.stay (h : s.Sessions) {b : Buf} {pl : Place n} (hid : b.id = (s.buf i).id)
    (hcnt : b.refcnt = (s.buf i).refcnt) (hrefers : pl.refers = (s.place p).refers)
    (howns : pl.owns = (s.place p).owns) : ((s.setBuf i b).goto p pl).Sessions :=
  h.congr (fun j => update_buf (f := Buf.id) j hid) (fun j => update_buf (f := Buf.refcnt) j hcnt) rfl
    rfl (fun q => update_place (f := Place.refers) q hrefers)
    (fun q => update_place (f := Place.owns) q howns)

theorem Sessions.enter (h : s.Sessions) {b : Buf} {pl : Place n} (hplace : s.place p = .idle)
    (hcnt : b.refcnt = (s.buf i).refcnt + 1) (hrefers : pl.refers = some i) (howns : pl.owns = none)
    (hdev : b.id.dev ≠ 0) (hid : ∀ j, j ≠ i → (s.buf j).id ≠ b.id) : ((s.setBuf i b).goto p pl).Sessions where
  lists := h.lists
  once j k := by
    rw [goto_buf, setBuf_buf]
    intro heq hne
    by_cases hj : j = i
    · by_cases hk : k = i
      · rw [hj, hk]
      · rw [hj, update_self, update_of_ne hk] at heq
        exact absurd heq.symm (hid k hk)
    · by_cases hk : k = i
      · rw [hk, update_self, update_of_ne hj] at heq
        exact absurd heq (hid j hj)
      · rw [update_of_ne hj, update_of_ne hk] at heq
        rw [update_of_ne hj] at hne
        exact h.once j k heq hne
  refcnt j := by
    have hgoto := refs_goto (s := s.setBuf i b) (p := p) pl j
    rw [setBuf_place, hplace, hrefers, if_neg (show Place.idle.refers ≠ some j from by simp [Place.refers])] at hgoto
    have hsame : (s.setBuf i b).refs j = s.refs j := rfl
    have hcount := h.refcnt j
    rw [hsame] at hgoto
    rw [goto_buf, setBuf_buf]
    by_cases hj : j = i
    · rw [if_pos (congrArg some hj.symm)] at hgoto
      rw [hj] at hgoto hcount ⊢
      rw [update_self, hcnt]
      omega
    · rw [if_neg (by simpa using Ne.symm hj)] at hgoto
      rw [update_of_ne hj]
      omega
  lock j q := by
    have hidle : (s.place p).owns = none := by rw [hplace]; rfl
    rw [goto_lock, goto_place, setBuf_lock, setBuf_place,
      update_place (f := Place.owns) q (howns.trans hidle.symm)]
    exact h.lock j q
  asked q j := by
    rw [goto_place, goto_buf, setBuf_place, setBuf_buf]
    intro hq
    by_cases hj : j = i
    · rw [hj, update_self]
      exact hdev
    · rw [update_of_ne hj]
      by_cases hqp : q = p
      · rw [hqp, update_self, hrefers, Option.some.injEq] at hq
        exact absurd hq.symm hj
      · rw [update_of_ne hqp] at hq
        exact h.asked q j hq

omit [DecidableEq ι] in
private theorem hit_id {id : BlockId} (h : s.Sessions) (hhit : s.hit id = some i) :
    (s.buf i).id = id := by
  rcases h.lists with ⟨l, hl, -⟩
  rw [hit, hl.forward hl.length_le] at hhit
  simpa using List.find?_some hhit

omit [DecidableEq ι] in
theorem not_hit {id : BlockId} (h : s.Sessions) (hhit : s.hit id = none) (j : Fin n) :
    (s.buf j).id ≠ id := by
  rcases h.lists with ⟨l, hl, hall⟩
  rw [hit, hl.forward hl.length_le] at hhit
  simpa using List.find?_eq_none.mp hhit j (hall j)

omit [DecidableEq ι] in
theorem victim_spare (h : s.Sessions) (hvictim : s.victim = some i) :
    (s.buf i).refcnt = 0 ∧ (s.buf i).dirty = false := by
  rcases h.lists with ⟨l, hl, -⟩
  rw [victim, hl.backward hl.length_le] at hvictim
  have hspare := List.find?_some hvictim
  simpa [spare] using hspare

private theorem Sessions.relock (h : s.Sessions) {holder : Option ι} {pl : Place n}
    (hrefers : pl.refers = (s.place p).refers)
    (hlock : ∀ j q, update s.lock i holder j = some q ↔ (update s.place p pl q).owns = some j) :
    ((s.setLock i holder).goto p pl).Sessions where
  lists := h.lists
  once := h.once
  refcnt j := by
    rw [refs_congr (s := s) fun q => update_place (f := Place.refers) q hrefers]
    exact h.refcnt j
  lock := hlock
  asked q j := by
    rw [goto_place, goto_buf, setLock_place, update_place (f := Place.refers) q hrefers]
    exact h.asked q j

private theorem Sessions.acquired (h : s.Sessions) (hplace : s.place p = .waiting i)
    (hlock : s.lock i = none) : ((s.setLock i (some p)).goto p (.locked i)).Sessions := by
  refine h.relock (by rw [hplace]; rfl) fun j q => ?_
  by_cases hj : j = i
  · subst hj
    rw [update_self]
    by_cases hq : q = p
    · rw [hq, update_self]
      simp [Place.owns]
    · rw [update_of_ne hq]
      simp [Ne.symm hq, h.nobody hlock q]
  · rw [update_of_ne hj, h.lock j q]
    by_cases hq : q = p
    · rw [hq, update_self, hplace]
      simp [Place.owns, Ne.symm hj]
    · rw [update_of_ne hq]

private theorem Sessions.released (h : s.Sessions) (hplace : s.place p = .held i false) :
    ((s.setLock i none).goto p (.leaving i)).Sessions := by
  have hown : s.lock i = some p := (h.lock i p).mpr (by rw [hplace]; rfl)
  refine h.relock (by rw [hplace]; rfl) fun j q => ?_
  by_cases hj : j = i
  · subst hj
    rw [update_self]
    by_cases hq : q = p
    · rw [hq, update_self]
      simp [Place.owns]
    · have hother : (s.place q).owns ≠ some j := by
        rw [ne_eq, ← h.lock j q, hown, Option.some.injEq]
        exact Ne.symm hq
      rw [update_of_ne hq]
      simp [hother]
  · rw [update_of_ne hj, h.lock j q]
    by_cases hq : q = p
    · rw [hq, update_self, hplace]
      simp [Place.owns, Ne.symm hj]
    · rw [update_of_ne hq]

omit [Fintype ι] [DecidableEq ι] in
private theorem unref_id (j : Fin n) : ((s.unref i).buf j).id = (s.buf j).id := by
  rw [unref_buf]
  exact update_buf (f := Buf.id) j rfl

theorem Sessions.unref (h : s.Sessions) (hplace : s.place p = .leaving i) :
    ((s.unref i).goto p .idle).Sessions where
  lists := by
    rcases h.lists with ⟨l, hl, hall⟩
    by_cases hzero : (s.buf i).refcnt - 1 = 0
    · rcases List.append_of_mem (hall i) with ⟨a, b, rfl⟩
      refine ⟨i :: (a ++ b), ?_, ?_⟩
      · simp only [goto_chain, Bcache.unref, if_pos hzero]
        exact hl.moveFront
      · intro j
        exact List.perm_middle.mem_iff.mp (hall j)
    · refine ⟨l, ?_, hall⟩
      simp only [goto_chain, Bcache.unref, if_neg hzero]
      exact hl
  once j k := by
    rw [goto_buf, unref_id, unref_id]
    exact h.once j k
  refcnt j := by
    have hgoto := refs_goto (s := s.unref i) (p := p) .idle j
    have hsame : (s.unref i).refs j = s.refs j := rfl
    have hleaving : (s.unref i).place p = .leaving i := hplace
    have hcount := h.refcnt j
    rw [hsame, hleaving, if_neg (show Place.idle.refers ≠ some j by simp [Place.refers])] at hgoto
    simp only [Place.refers, Option.some.injEq] at hgoto
    rw [goto_buf, unref_buf]
    by_cases hj : j = i
    · rw [if_pos hj.symm] at hgoto
      rw [hj] at hgoto hcount ⊢
      rw [update_self]
      dsimp only
      omega
    · rw [if_neg (Ne.symm hj)] at hgoto
      rw [update_of_ne hj]
      omega
  lock j q := by
    have howns : Place.idle.owns = (s.place p).owns := by rw [hplace]; rfl
    rw [goto_lock, goto_place, unref_lock, unref_place,
      update_place (f := Place.owns) (s := s) q howns]
    exact h.lock j q
  asked q j := by
    rw [goto_place, goto_buf, unref_place, unref_id]
    intro hq
    by_cases hqp : q = p
    · rw [hqp, update_self] at hq
      simp [Place.refers] at hq
    · rw [update_of_ne hqp] at hq
      exact h.asked q j hq

omit [DecidableEq ι] in
theorem cold_sessions (s : Bcache n ι) : s.cold.Sessions where
  lists := ⟨_, binit_lists, by simp⟩
  once i j _ hne := absurd rfl hne
  refcnt i := (tally_eq_zero _ fun p => by simp [cold, Place.refers]).symm
  lock i p := by simp [cold, Place.owns]
  asked p i := by simp [cold, Place.refers]

theorem Sessions.next {a : Session} {io : Option Io} (h : s.Sessions)
    (hnext : s.next p a = some (s', io)) : s'.Sessions := by
  cases next_cases hnext with
  | found hplace hdev hhit =>
    have hid := hit_id h hhit
    refine h.enter hplace rfl rfl rfl (by simpa [hid] using hdev) ?_
    intro j hj heq
    refine hj (h.once j _ heq ?_)
    rw [heq]
    simpa [hid] using hdev
  | recycled hplace hdev hhit hvictim =>
    have hzero := (victim_spare h hvictim).1
    exact h.enter hplace (by simp [hzero]) rfl rfl hdev fun j _ => not_hit h hhit j
  | acquired hplace hlock => exact h.acquired hplace hlock
  | cached hplace hvalid =>
    refine h.congr (fun _ => rfl) (fun _ => rfl) rfl rfl ?_ ?_
    · exact fun q => update_place (f := Place.refers) q (by rw [hplace]; rfl)
    · exact fun q => update_place (f := Place.owns) q (by rw [hplace]; rfl)
  | asks hplace hvalid =>
    refine h.congr (fun _ => rfl) (fun _ => rfl) rfl rfl ?_ ?_
    · exact fun q => update_place (f := Place.refers) q (by rw [hplace]; rfl)
    · exact fun q => update_place (f := Place.owns) q (by rw [hplace]; rfl)
  | @written i hplace hdirty =>
    have hdisk : (s.setDisk (s.buf i).id (s.buf i).data).Sessions :=
      ⟨h.lists, h.once, h.refcnt, h.lock, h.asked⟩
    exact hdisk.stay rfl rfl (by rw [setDisk_place, hplace]; rfl) (by rw [setDisk_place, hplace]; rfl)
  | filled hplace hdirty => exact h.stay rfl rfl (by rw [hplace]; rfl) (by rw [hplace]; rfl)
  | see hplace => exact h
  | put hplace v => exact h.stay rfl rfl (by rw [hplace]; rfl) (by rw [hplace]; rfl)
  | pin hplace => exact h.stay rfl rfl (by rw [hplace]; rfl) (by rw [hplace]; rfl)
  | bwrite hplace => exact h.stay rfl rfl (by rw [hplace]; rfl) (by rw [hplace]; rfl)
  | released hplace => exact h.released hplace
  | unref hplace => exact h.unref hplace

theorem Sessions.act {a : CacheAct ι} {io : Option Io} (h : s.Sessions)
    (hact : s.act a = some (s', io)) : s'.Sessions := by
  cases a with
  | session p a => exact h.next hact
  | crash =>
    simp only [Bcache.act, Option.some.injEq, Prod.mk.injEq] at hact
    rcases hact with ⟨rfl, -⟩
    exact cold_sessions s

end Steps

end Bcache

end OsSessional.Storage

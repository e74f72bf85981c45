import OsSessional.Storage.Cache

/-!
# The cache is the block store

In every interleaving of the sessions a valid buffer shows the contents last put into its block, and
a block whose buffer may be recycled is on the disc as it was put. So whoever runs over the cache may
be thought to run over the block store.
-/

namespace OsSessional.Storage.Bcache

open Function (update update_self update_of_ne)

variable {n : Nat} {ι : Type} [Fintype ι]

/-- The buffers and the disc hold the blocks of the store. -/
structure Agrees (s : Bcache n ι) (t : Store) : Prop where
  disk : t.disk = s.disk
  data : ∀ i, (s.buf i).id.dev ≠ 0 → (s.buf i).valid = true → (s.buf i).data = t.mem (s.buf i).id
  clean : ∀ i, (s.buf i).id.dev ≠ 0 → (s.buf i).dirty = false → (∀ p, s.place p ≠ .held i true) →
    t.mem (s.buf i).id = t.disk (s.buf i).id
  uncached : ∀ id : BlockId, id.dev ≠ 0 → (∀ i, (s.buf i).id ≠ id) → t.mem id = t.disk id
  valid : ∀ p i w, s.place p = .held i w → (s.buf i).valid = true
  dirty : ∀ i, (s.buf i).dirty = true → (s.buf i).valid = true

variable [DecidableEq ι] {s s' : Bcache n ι} {t : Store} {p : ι} {i : Fin n}

omit [DecidableEq ι] in
theorem Sessions.holder_unique (h : s.Sessions) {q : ι} (hp : (s.place p).owns = some i)
    (hq : (s.place q).owns = some i) : q = p := by
  have hlock := (h.lock i p).mpr hp
  rw [(h.lock i q).mpr hq, Option.some.injEq] at hlock
  exact hlock

omit [DecidableEq ι] in
private theorem Sessions.not_wrote (h : s.Sessions) (hp : (s.place p).owns = some i)
    (hplace : s.place p ≠ .held i true) (q : ι) : s.place q ≠ .held i true := by
  intro hq
  have heq := h.holder_unique hp (by rw [hq]; rfl)
  exact hplace (heq ▸ hq)

omit [Fintype ι] [DecidableEq ι] in
private theorem Agrees.congr (h : s.Agrees t) (hid : ∀ j, (s'.buf j).id = (s.buf j).id)
    (hvalid : ∀ j, (s'.buf j).valid = (s.buf j).valid)
    (hdirty : ∀ j, (s'.buf j).dirty = (s.buf j).dirty) (hdata : ∀ j, (s'.buf j).data = (s.buf j).data)
    (hdisk : s'.disk = s.disk)
    (hheld : ∀ q j w, s'.place q = .held j w → s.place q = .held j w ∨ (s.buf j).valid = true)
    (hwrote : ∀ q j, s.place q = .held j true → s'.place q = .held j true) : s'.Agrees t where
  disk := h.disk.trans hdisk.symm
  data j := by
    rw [hid, hvalid, hdata]
    exact h.data j
  clean j := by
    rw [hid, hdirty]
    intro hdev hclean hnobody
    exact h.clean j hdev hclean fun q hq => hnobody q (hwrote q j hq)
  uncached id hdev hnone := h.uncached id hdev fun j => hid j ▸ hnone j
  valid q j w hq := by
    rw [hvalid]
    rcases hheld q j w hq with hold | hnew
    · exact h.valid q j w hold
    · exact hnew
  dirty j := by
    rw [hdirty, hvalid]
    exact h.dirty j

omit [Fintype ι] in
private theorem Agrees.goto (h : s.Agrees t) {pl : Place n} (hfrom : ∀ j, s.place p ≠ .held j true)
    (hto : ∀ j w, pl = .held j w → (s.buf j).valid = true) : (s.goto p pl).Agrees t := by
  refine h.congr (fun _ => rfl) (fun _ => rfl) (fun _ => rfl) (fun _ => rfl) rfl ?_ ?_
  · intro q j w hq
    by_cases hqp : q = p
    · rw [hqp, goto_place, update_self] at hq
      exact Or.inr (hto j w hq)
    · rw [goto_place, update_of_ne hqp] at hq
      exact Or.inl hq
  · intro q j hq
    have hqp : q ≠ p := fun heq => hfrom j (heq ▸ hq)
    rw [goto_place, update_of_ne hqp]
    exact hq

omit [Fintype ι] [DecidableEq ι] in
private theorem Agrees.setRefcnt (h : s.Agrees t) (i : Fin n) (c : Nat) :
    (s.setBuf i { s.buf i with refcnt := c }).Agrees t := by
  have hsame {β : Type} (f : Buf → β) (hf : f { s.buf i with refcnt := c } = f (s.buf i)) (j : Fin n) :
      f ((s.setBuf i { s.buf i with refcnt := c }).buf j) = f (s.buf j) := update_buf j hf
  exact h.congr (hsame Buf.id rfl) (hsame Buf.valid rfl) (hsame Buf.dirty rfl) (hsame Buf.data rfl) rfl
    (fun _ _ _ hq => Or.inl hq) (fun _ _ hq => hq)

omit [Fintype ι] [DecidableEq ι] in
private theorem Agrees.unref (h : s.Agrees t) (i : Fin n) : (s.unref i).Agrees t :=
  have hcnt := h.setRefcnt i ((s.buf i).refcnt - 1)
  ⟨hcnt.disk, hcnt.data, hcnt.clean, hcnt.uncached, hcnt.valid, hcnt.dirty⟩

omit [Fintype ι] [DecidableEq ι] in
private theorem Agrees.setLock (h : s.Agrees t) (i : Fin n) (holder : Option ι) :
    (s.setLock i holder).Agrees t :=
  ⟨h.disk, h.data, h.clean, h.uncached, h.valid, h.dirty⟩

omit [DecidableEq ι] in
private theorem Agrees.recycle (h : s.Agrees t) (hs : s.Sessions) {id : BlockId}
    (hzero : (s.buf i).refcnt = 0) (hclean : (s.buf i).dirty = false)
    (hnew : ∀ j, (s.buf j).id ≠ id) (hdev : id.dev ≠ 0) (c : Nat) :
    (s.setBuf i { s.buf i with valid := false, dirty := false, id := id, refcnt := c }).Agrees t := by
  have hnobody (q : ι) (w : Bool) : s.place q ≠ .held i w := by
    intro hq
    exact hs.unreferenced hzero q (by rw [hq]; rfl)
  refine ⟨h.disk, ?_, ?_, ?_, ?_, ?_⟩
  · intro j
    rw [setBuf_buf]
    by_cases hj : j = i
    · rw [hj, update_self]
      exact fun _ hfalse => absurd hfalse (by simp)
    · rw [update_of_ne hj]
      exact h.data j
  · intro j
    rw [setBuf_buf, setBuf_place]
    by_cases hj : j = i
    · rw [hj, update_self]
      exact fun _ _ _ => h.uncached id hdev hnew
    · rw [update_of_ne hj]
      exact h.clean j
  · intro id' hdev' hnone
    by_cases hold : (s.buf i).id = id'
    · rw [← hold]
      exact h.clean i (hold ▸ hdev') hclean fun q => hnobody q true
    · refine h.uncached id' hdev' fun j hj => ?_
      have hji : j ≠ i := fun heq => hold (heq ▸ hj)
      refine hnone j ?_
      rw [setBuf_buf, update_of_ne hji]
      exact hj
  · intro q j w hq
    have hji : j ≠ i := by
      rintro rfl
      exact hnobody q w hq
    rw [setBuf_buf, update_of_ne hji]
    exact h.valid q j w hq
  · intro j
    rw [setBuf_buf]
    by_cases hj : j = i
    · rw [hj, update_self]
      exact fun hfalse => absurd hfalse (by simp)
    · rw [update_of_ne hj]
      exact h.dirty j

omit [Fintype ι] in
private theorem Agrees.mark (h : s.Agrees t) {w : Bool} {pl : Place n} (hplace : s.place p = .held i w)
    (hto : ∀ j w', pl = .held j w' → j = i) :
    ((s.setBuf i { s.buf i with dirty := true }).goto p pl).Agrees t := by
  have hvalid := h.valid p i w hplace
  have hsame {β : Type} (f : Buf → β) (hf : f { s.buf i with dirty := true } = f (s.buf i))
      (j : Fin n) : f (((s.setBuf i { s.buf i with dirty := true }).goto p pl).buf j) = f (s.buf j) :=
    update_buf j hf
  have hother {j : Fin n} (hj : j ≠ i) :
      ((s.setBuf i { s.buf i with dirty := true }).goto p pl).buf j = s.buf j := update_of_ne hj ..
  refine ⟨h.disk, ?_, ?_, ?_, ?_, ?_⟩
  · intro j
    rw [hsame Buf.id rfl, hsame Buf.valid rfl, hsame Buf.data rfl]
    exact h.data j
  · intro j hdev hclean hnobody
    have hji : j ≠ i := by
      rintro rfl
      simp at hclean
    rw [hother hji] at hdev hclean ⊢
    refine h.clean j hdev hclean fun q hq => hnobody q ?_
    have hqp : q ≠ p := by
      rintro rfl
      rw [hplace, Place.held.injEq] at hq
      exact hji hq.1.symm
    rw [goto_place, setBuf_place, update_of_ne hqp]
    exact hq
  · intro id hdev hnone
    refine h.uncached id hdev fun j => ?_
    have hj := hnone j
    rw [hsame Buf.id rfl] at hj
    exact hj
  · intro q j w' hq
    rw [hsame Buf.valid rfl]
    by_cases hqp : q = p
    · rw [hqp, goto_place, update_self] at hq
      rw [hto j w' hq]
      exact hvalid
    · rw [goto_place, setBuf_place, update_of_ne hqp] at hq
      exact h.valid q j w' hq
  · intro j
    by_cases hj : j = i
    · rw [hsame Buf.valid rfl, hj]
      exact fun _ => hvalid
    · rw [hother hj]
      exact h.dirty j

private theorem Agrees.put (h : s.Agrees t) (hs : s.Sessions) {w : Bool} (hplace : s.place p = .held i w)
    (v : Block) :
    ((s.setBuf i { s.buf i with data := v }).goto p (.held i true)).Agrees
      (t.put (s.buf i).id v) := by
  have hdev := hs.asked p i (by rw [hplace]; rfl)
  have hother {j : Fin n} (hj : j ≠ i) :
      ((s.setBuf i { s.buf i with data := v }).goto p (.held i true)).buf j = s.buf j :=
    update_of_ne hj ..
  have hself : ((s.setBuf i { s.buf i with data := v }).goto p (.held i true)).buf i =
      { s.buf i with data := v } := update_self ..
  have happart {j : Fin n} (hj : j ≠ i) : (s.buf j).id ≠ (s.buf i).id := fun heq =>
    hj (hs.once i j heq.symm hdev).symm
  refine ⟨h.disk, ?_, ?_, ?_, ?_, ?_⟩
  · intro j hdevj hvalid
    by_cases hj : j = i
    · rw [hj, hself]
      rw [Store.put_mem, update_self]
    · rw [hother hj] at hdevj hvalid ⊢
      rw [Store.put_mem, update_of_ne (happart hj)]
      exact h.data j hdevj hvalid
  · intro j hdevj hclean hnobody
    have hji : j ≠ i := by
      rintro rfl
      exact hnobody p (update_self ..)
    rw [hother hji] at hdevj hclean ⊢
    rw [Store.put_mem, update_of_ne (happart hji)]
    refine h.clean j hdevj hclean fun q hq => hnobody q ?_
    have hqp : q ≠ p := by
      rintro rfl
      rw [hplace, Place.held.injEq] at hq
      exact hji hq.1.symm
    rw [goto_place, setBuf_place, update_of_ne hqp]
    exact hq
  · intro id hdevid hnone
    have hne : id ≠ (s.buf i).id := by
      rintro rfl
      exact hnone i (by rw [hself])
    rw [Store.put_mem, update_of_ne hne]
    refine h.uncached id hdevid fun j hj => hnone j ?_
    by_cases hji : j = i
    · rw [hji] at hj ⊢
      rw [hself]
      exact hj
    · rw [hother hji]
      exact hj
  · intro q j w' hq
    by_cases hj : j = i
    · rw [hj, hself]
      exact h.valid p i w hplace
    · rw [hother hj]
      by_cases hqp : q = p
      · rw [hqp, goto_place, update_self, Place.held.injEq] at hq
        exact absurd hq.1.symm hj
      · rw [goto_place, setBuf_place, update_of_ne hqp] at hq
        exact h.valid q j w' hq
  · intro j
    by_cases hj : j = i
    · rw [hj, hself]
      exact h.dirty i
    · rw [hother hj]
      exact h.dirty j

private theorem Agrees.filled (h : s.Agrees t) (hs : s.Sessions) (hplace : s.place p = .inIde i)
    (hclean : (s.buf i).dirty = false) :
    ((s.setBuf i { s.buf i with data := s.disk (s.buf i).id, valid := true }).goto p
      (.held i false)).Agrees t := by
  have hdev := hs.asked p i (by rw [hplace]; rfl)
  have hdisk := h.clean i hdev hclean (hs.not_wrote (by rw [hplace]; rfl) (by rw [hplace]; simp))
  let b : Buf := { s.buf i with data := s.disk (s.buf i).id, valid := true }
  have hset : (s.setBuf i b).Agrees t := by
    have hself : (s.setBuf i b).buf i = b := update_self ..
    have hother {j : Fin n} (hj : j ≠ i) : (s.setBuf i b).buf j = s.buf j := update_of_ne hj ..
    have hid (j : Fin n) : ((s.setBuf i b).buf j).id = (s.buf j).id := update_buf (f := Buf.id) j rfl
    have hdirty (j : Fin n) : ((s.setBuf i b).buf j).dirty = (s.buf j).dirty :=
      update_buf (f := Buf.dirty) j rfl
    refine ⟨h.disk, ?_, ?_, ?_, ?_, ?_⟩
    · intro j hdevj hvalid
      by_cases hj : j = i
      · rw [hj, hself, hdisk, h.disk]
      · rw [hother hj] at hdevj hvalid ⊢
        exact h.data j hdevj hvalid
    · intro j
      rw [hid, hdirty]
      exact h.clean j
    · intro id hdevid hnone
      exact h.uncached id hdevid fun j => hid j ▸ hnone j
    · intro q j w hq
      by_cases hj : j = i
      · rw [hj, hself]
      · rw [hother hj]
        exact h.valid q j w hq
    · intro j
      by_cases hj : j = i
      · rw [hj, hself]
        exact fun _ => rfl
      · rw [hother hj]
        exact h.dirty j
  refine hset.goto (by simp [hplace]) fun j w hj => ?_
  rw [Place.held.injEq] at hj
  rw [← hj.1]
  simp [b]

private theorem Agrees.written (h : s.Agrees t) (hs : s.Sessions) (hplace : s.place p = .inIde i)
    (hdirty : (s.buf i).dirty = true) :
    (((s.setDisk (s.buf i).id (s.buf i).data).setBuf i
      { s.buf i with valid := true, dirty := false }).goto p (.held i false)).Agrees
      (t.flush (s.buf i).id) := by
  have hdev := hs.asked p i (by rw [hplace]; rfl)
  have hvalid := h.dirty i hdirty
  have hdata := h.data i hdev hvalid
  let b : Buf := { s.buf i with valid := true, dirty := false }
  have happart {j : Fin n} (hj : j ≠ i) (hdevj : (s.buf j).id.dev ≠ 0) :
      (s.buf j).id ≠ (s.buf i).id := fun heq => hj (hs.once j i heq hdevj)
  have hset : ((s.setDisk (s.buf i).id (s.buf i).data).setBuf i b).Agrees
      (t.flush (s.buf i).id) := by
    have hself : ((s.setDisk (s.buf i).id (s.buf i).data).setBuf i b).buf i = b := update_self ..
    have hother {j : Fin n} (hj : j ≠ i) :
        ((s.setDisk (s.buf i).id (s.buf i).data).setBuf i b).buf j = s.buf j := update_of_ne hj ..
    have hid (j : Fin n) : (((s.setDisk (s.buf i).id (s.buf i).data).setBuf i b).buf j).id =
        (s.buf j).id := update_buf (f := Buf.id) j rfl
    refine ⟨?_, ?_, ?_, ?_, ?_, ?_⟩
    · rw [Store.flush_disk, setBuf_disk, setDisk_disk, h.disk, hdata]
    · intro j hdevj hvalidj
      by_cases hj : j = i
      · rw [hj, hself]
        exact hdata
      · rw [hother hj] at hdevj hvalidj ⊢
        exact h.data j hdevj hvalidj
    · intro j hdevj hclean hnobody
      by_cases hj : j = i
      · rw [hj, hself]
        rw [Store.flush_disk, update_self, Store.flush_mem]
      · rw [hother hj] at hdevj hclean ⊢
        rw [Store.flush_disk, update_of_ne (happart hj hdevj)]
        exact h.clean j hdevj hclean hnobody
    · intro id hdevid hnone
      have hne : id ≠ (s.buf i).id := fun heq => hnone i ((hid i).trans heq.symm)
      rw [Store.flush_disk, update_of_ne hne]
      exact h.uncached id hdevid fun j => hid j ▸ hnone j
    · intro q j w hq
      by_cases hj : j = i
      · rw [hj, hself]
      · rw [hother hj]
        exact h.valid q j w hq
    · intro j
      by_cases hj : j = i
      · rw [hj, hself]
        exact fun _ => rfl
      · rw [hother hj]
        exact h.dirty j
  refine hset.goto (by simp [hplace]) fun j w hj => ?_
  rw [Place.held.injEq] at hj
  rw [← hj.1]
  simp [b]

omit [Fintype ι] [DecidableEq ι] in
theorem Agrees.crash (h : s.Agrees t) : s.cold.Agrees t.crash where
  disk := h.disk
  data i hdev := absurd rfl hdev
  clean i hdev := absurd rfl hdev
  uncached _ _ _ := rfl
  valid p i w hp := by simp [cold] at hp
  dirty i hi := by simp [cold] at hi

/-- The cache under any interleaving of its sessions is the block store. -/
theorem simulates_store :
    Simulates (Bcache.Step (n := n) (ι := ι)) Store.Step fun s t => s.Sessions ∧ s.Agrees t where
  act s t io s' := by
    rintro ⟨hs, h⟩ ⟨a, hact⟩
    have hs' := hs.act hact
    cases a with
    | crash =>
      simp only [act, Option.some.injEq, Prod.mk.injEq] at hact
      rcases hact with ⟨rfl, rfl⟩
      exact ⟨_, .crash t, hs', h.crash⟩
    | session p a =>
      generalize hio : some io = o at hact
      cases next_cases hact with
      | written hplace hdirty =>
        obtain rfl := Option.some.inj hio
        exact ⟨_, .flush t _, hs', h.written hs hplace hdirty⟩
      | @see i w hplace =>
        obtain rfl := Option.some.inj hio
        have hdev := hs.asked p i (by rw [hplace]; rfl)
        rw [h.data i hdev (h.valid p i w hplace)]
        exact ⟨t, .see t _, hs', h⟩
      | put hplace v =>
        obtain rfl := Option.some.inj hio
        exact ⟨_, .put t _ v, hs', h.put hs hplace v⟩
      | pin hplace =>
        obtain rfl := Option.some.inj hio
        exact ⟨t, .pin t _, hs', h.mark hplace (by simp)⟩
      | _ => exact absurd hio (by simp)
  silent s t s' := by
    rintro ⟨hs, h⟩ ⟨a, hact⟩
    have hs' := hs.act hact
    refine ⟨hs', ?_⟩
    cases a with
    | crash => simp [act] at hact
    | session p a =>
      generalize hio : (none : Option Io) = o at hact
      cases next_cases hact with
      | found hplace hdev hhit => exact (h.setRefcnt _ _).goto (by simp [hplace]) (by simp)
      | recycled hplace hdev hhit hvictim =>
        have hspare := victim_spare hs hvictim
        exact (h.recycle hs hspare.1 hspare.2 (not_hit hs hhit) hdev 1).goto (by simp [hplace])
          (by simp)
      | acquired hplace hlock =>
        exact (h.setLock _ (some p)).goto (by simp [hplace]) (by simp)
      | cached hplace hvalid =>
        refine h.goto (by simp [hplace]) fun j w hj => ?_
        rw [Place.held.injEq] at hj
        exact hj.1 ▸ hvalid
      | asks hplace hvalid => exact h.goto (by simp [hplace]) (by simp)
      | filled hplace hdirty => exact h.filled hs hplace hdirty
      | bwrite hplace => exact h.mark hplace (by simp)
      | released hplace =>
        exact (h.setLock _ none).goto (by simp [hplace]) (by simp)
      | unref hplace => exact (h.unref _).goto (by simp [hplace]) (by simp)
      | _ => exact absurd hio (by simp)

end OsSessional.Storage.Bcache

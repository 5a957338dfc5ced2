import YardIce.Mbuf.PoolSpec

/-!
# What the queue functions do

One specification for each `mbuf_queue_*` function, in terms of the bytes that
the queue holds before and after the call.
-/

namespace YardIce.MbufPool

open Lib ListPool ListHeap

variable {Q V : Type} [DecidableEq Q]
variable {s s' s'' : MbufSys Q} {c c' c'' : Place Q V → List Mbuf} {q : Q} {m : Mbuf}

@[simp] theorem setQueue_self (s : MbufSys Q) (q : Q) (offs len : Nat) :
    (setQueue s q offs len).queue q = ⟨offs % 65536, len % 65536⟩ := by
  simp [setQueue]

theorem setQueue_of_ne {r : Q} (h : r ≠ q) (s : MbufSys Q) (offs len : Nat) :
    (setQueue s q offs len).queue r = s.queue r := by
  simp [setQueue, Function.update_of_ne h]

@[simp] theorem setQueue_data (s : MbufSys Q) (q : Q) (offs len : Nat) :
    (setQueue s q offs len).data = s.data := rfl

omit [DecidableEq Q] in
theorem writeBytes_of_ne {data : Mbuf → Nat → UInt8} {b : Mbuf} (h : b ≠ m) (offs : Nat)
    (src : List UInt8) : writeBytes data m offs src b = data b := by
  funext i
  simp [writeBytes, h]

omit [DecidableEq Q] in
theorem queuePlace_ne {r : Q} (h : (queuePlace r : Place Q V) ≠ queuePlace q) : r ≠ q :=
  fun he => h (by rw [he])

section Add

/-- The first `k` bytes of `src` were appended to the queue. -/
structure Added (q : Q) (s : MbufSys Q) (c : Place Q V → List Mbuf) (src : List UInt8) (k : Nat)
    (s' : MbufSys Q) (c' : Place Q V → List Mbuf) : Prop where
  le : k ≤ src.length
  inv : Inv s' c'
  frame : Frame (queuePlace q) s c s' c'
  bytes : queueBytes s' c' q = queueBytes s c q ++ src.take k

omit [DecidableEq Q] in
theorem Added.none (hinv : Inv s c) (q : Q) (src : List UInt8) : Added q s c src 0 s c :=
  ⟨Nat.zero_le _, hinv, Frame.refl _ _ _, by simp⟩

omit [DecidableEq Q] in
theorem Added.trans {src : List UInt8} {j k : Nat} (h : Added q s c src j s' c')
    (h' : Added q s' c' (src.drop j) k s'' c'') : Added q s c src (j + k) s'' c'' := by
  have hlen := h'.le
  have hle := h.le
  rw [List.length_drop] at hlen
  refine ⟨by lia, h'.inv, h.frame.trans h'.frame, ?_⟩
  rw [h'.bytes, h.bytes, List.append_assoc, List.take_add]

omit [DecidableEq Q] in
theorem Added.of_take {src : List UInt8} {k : Nat} (h : Added q s c (src.take k) k s' c') :
    Added q s c src k s' c' := by
  have hle := h.le
  rw [List.length_take] at hle
  refine ⟨by lia, h.inv, h.frame, ?_⟩
  rw [h.bytes, List.take_take, min_self]

omit [DecidableEq Q] in
theorem Added.of_frame {src : List UInt8} {k : Nat} (hframe : Frame (queuePlace q) s c s' c')
    (hbytes : queueBytes s' c' q = queueBytes s c q) (h : Added q s' c' src k s'' c'') :
    Added q s c src k s'' c'' :=
  ⟨h.le, h.inv, hframe.trans h.frame, by rw [h.bytes, hbytes]⟩

omit [DecidableEq Q] in
/-- The last buffer of a queue that ends inside a buffer. -/
theorem last_of_partial (hinv : Inv s c)
    (hpart : ((s.queue q).offs + (s.queue q).len) % mbufDataSize ≠ 0) :
    ∃ l b, c (queuePlace q) = l ++ [b] ∧ s.heap.last (.queue q) = .node b ∧
      ((s.queue q).offs + (s.queue q).len) / mbufDataSize = l.length := by
  have hlen := (hinv.fill q).length_eq
  have hlast := (hinv.holds_queue q).last_eq
  rcases List.eq_nil_or_concat (c (queuePlace q)) with he | ⟨l, b, he⟩
  · rw [he] at hlen
    simp only [mbufDataSize, List.length_nil] at hlen hpart
    lia
  · rw [he, List.concat_eq_append, lastLink_append_singleton] at hlast
    rw [he, List.concat_eq_append, List.length_append, List.length_singleton] at hlen
    refine ⟨l, b, by simpa using he, hlast, ?_⟩
    simp only [mbufDataSize] at hlen hpart ⊢
    lia

/-- Bytes written behind the data, into the buffer `m`, and counted. -/
def written (s : MbufSys Q) (q : Q) (m : Mbuf) (src : List UInt8) : MbufSys Q :=
  let offs := ((s.queue q).offs + (s.queue q).len) % mbufDataSize
  setQueue { s with data := writeBytes s.data m offs src } q (s.queue q).offs
    ((s.queue q).len + src.length)

theorem written_queue {src : List UInt8}
    (hbound : (s.queue q).offs + (s.queue q).len + src.length < 65536) :
    (written s q m src).queue q = ⟨(s.queue q).offs, (s.queue q).len + src.length⟩ := by
  have h₁ : (s.queue q).offs % 65536 = (s.queue q).offs := Nat.mod_eq_of_lt (by lia)
  have h₂ : ((s.queue q).len + src.length) % 65536 = (s.queue q).len + src.length :=
    Nat.mod_eq_of_lt (by lia)
  simp [written, h₁, h₂]

/-- Where the last buffer `m` has room for `src` the write appends it. The buffer
may just have come from the free list, so the queue is described by its bytes. -/
theorem written_added {l : List Mbuf} {src : List UInt8} (hinv : PoolInv s c)
    (hfill : ∀ r, r ≠ q → Fill (s.queue r) (c (queuePlace r)))
    (hc : c (queuePlace q) = l ++ [m]) (hne : src ≠ [])
    (hoffs : (s.queue q).offs < mbufDataSize)
    (hidx : ((s.queue q).offs + (s.queue q).len) / mbufDataSize = l.length)
    (hfit : ((s.queue q).offs + (s.queue q).len) % mbufDataSize + src.length ≤ mbufDataSize) :
    Added q s c src src.length (written s q m src) c := by
  have hlen := hinv.length_le (queuePlace q)
  have hpos : 0 < src.length := List.length_pos_iff.mpr hne
  rw [hc, List.length_append, List.length_singleton] at hlen
  have hqueue : (written s q m src).queue q =
      ⟨(s.queue q).offs, (s.queue q).len + src.length⟩ := by
    apply written_queue
    simp only [mbufDataSize, mbufPoolSize] at *
    lia
  have hm : m ∉ l := by
    have hnd := hinv.pool.part.nodup (queuePlace q)
    rw [hc] at hnd
    intro hm
    exact (List.nodup_append'.mp hnd).2.2 hm (by simp)
  refine ⟨le_refl _, ⟨⟨hinv.pool, hinv.max_eq, hinv.used_eq, hinv.unlocked⟩, ?_⟩, ?_, ?_⟩
  · intro r
    by_cases hr : r = q
    · subst hr
      rw [hqueue]
      refine ⟨hoffs, ?_, ?_⟩
      · simp only [hc, List.length_append, List.length_singleton, mbufDataSize] at *
        lia
      · intro hz
        simp only at hz
        lia
    · simp only [written, setQueue_of_ne hr]
      exact hfill r hr
  · refine ⟨fun _ _ _ => rfl, ?_, fun _ _ _ _ hx => hx, ?_⟩
    · intro r _ hr b hb
      apply writeBytes_of_ne
      intro he
      exact hr (hinv.pool.part.eq_of_mem hb (by simp [hc, he]))
    · intro r hr
      exact setQueue_of_ne (queuePlace_ne hr) _ _ _
  · simp only [queueBytes, hqueue, hc, List.take_length]
    exact chainBytes_write hm hidx hfit

theorem addTail_spec (hinv : Inv s c) (q : Q) {src : List UInt8} (hne : src ≠ []) :
    ∃ k s', addTail s q src = .ok (src.drop k, s') ∧ Added q s c src k s' c ∧
      (k < src.length → ((s'.queue q).offs + (s'.queue q).len) % mbufDataSize = 0) := by
  by_cases hpart : ((s.queue q).offs + (s.queue q).len) % mbufDataSize = 0
  · refine ⟨0, s, ?_, Added.none hinv q src, fun _ => hpart⟩
    simp [addTail, hpart]
  · obtain ⟨l, b, hc, hlast, hidx⟩ := last_of_partial hinv hpart
    let n := min src.length
      (mbufDataSize - ((s.queue q).offs + (s.queue q).len) % mbufDataSize)
    have hmod : ((s.queue q).offs + (s.queue q).len) % mbufDataSize < mbufDataSize :=
      Nat.mod_lt _ (by decide)
    have hlen : (src.take n).length = n := by simp [n]
    have hpos : 0 < src.length := List.length_pos_iff.mpr hne
    have hadd : Added q s c (src.take n) (src.take n).length (written s q b (src.take n)) c := by
      apply written_added hinv.toPoolInv (fun r _ => hinv.fill r) hc
      · apply List.ne_nil_of_length_pos
        lia
      · exact (hinv.fill q).offs_lt
      · exact hidx
      · lia
    have hqueue : (written s q b (src.take n)).queue q =
        ⟨(s.queue q).offs, (s.queue q).len + n⟩ := by
      have hbound := hinv.offs_add_len_le q
      have hn : n ≤ mbufDataSize := by simp only [n]; lia
      rw [written_queue, hlen]
      simp only [hlen, mbufDataSize, mbufPoolSize] at *
      lia
    refine ⟨n, written s q b (src.take n), ?_, ?_, ?_⟩
    · simp only [addTail, ne_eq, hpart, not_false_eq_true, if_true, hlast, written, hlen, n]
    · rw [hlen] at hadd
      exact hadd.of_take
    · intro hlt
      rw [hqueue]
      simp only [mbufDataSize, n] at *
      lia

/-- A free buffer became the last one of the queue. -/
def grown (s : MbufSys Q) (q : Q) (m : Mbuf) : MbufSys Q :=
  { takeFirst s m with heap := (takeFirst s m).heap.insertTail (.queue q) m }

theorem grown_pool [DecidableEq V] (hinv : Inv s c) {l : List Mbuf} (hc : c freePlace = m :: l) :
    PoolInv (grown s q m) (moved c freePlace (queuePlace q) l m) := by
  have hne : (freePlace : Place Q V) ≠ queuePlace q := by simp
  refine ⟨?_, hinv.max_eq, ?_, hinv.unlocked⟩
  · simp only [grown, takeFirst_heap hinv hc]
    exact hinv.pool.move (u := []) Sum.inl_injective (by simp) hc
  · have hused := hinv.used_eq
    simp only [grown]
    rw [takeFirst_used hinv hc, moved_source hne]
    rw [hc, List.length_cons] at hused
    lia

theorem grown_frame [DecidableEq V] (hinv : Inv s c) {l : List Mbuf} (hc : c freePlace = m :: l) :
    Frame (queuePlace q) s c (grown s q m) (moved c freePlace (queuePlace q) l m) := by
  constructor
  · intro r hf hq
    exact moved_other hf hq _ _
  · intro r _ _ b _
    rfl
  · intro r hf hq x hx
    simp only [grown, takeFirst_heap hinv hc]
    exact hinv.pool.move_linked (u := []) (by simp) Sum.inl_injective hc hf hq hx
  · intro r _
    rfl

theorem grown_bytes [DecidableEq V] (hinv : Inv s c) (q : Q) (l : List Mbuf) (m : Mbuf) :
    queueBytes (grown s q m) (moved c freePlace (queuePlace q) l m) q = queueBytes s c q := by
  simp only [queueBytes, moved_target]
  exact chainBytes_append_left (hinv.fill q).offs_add_len_le _

/-- One round of the loop: a new buffer takes the next bytes. -/
theorem addRound_added [DecidableEq V] (hinv : Inv s c) {l : List Mbuf}
    (hc : c freePlace = m :: l) {src : List UInt8} (hne : src ≠ [])
    (hfull : ((s.queue q).offs + (s.queue q).len) % mbufDataSize = 0)
    (hfit : src.length ≤ mbufDataSize) :
    Added q s c src src.length (written (grown s q m) q m src)
      (moved c freePlace (queuePlace q) l m) := by
  have hlen := (hinv.fill q).length_eq
  have hfill : ∀ r, r ≠ q → Fill ((grown s q m).queue r)
      (moved c freePlace (queuePlace q) l m (queuePlace r)) := by
    intro r hr
    rw [moved_other (by simp) (by simpa using hr)]
    exact hinv.fill r
  apply Added.of_frame (grown_frame hinv hc) (grown_bytes hinv q l m)
  apply written_added (l := c (queuePlace q)) (grown_pool hinv hc) hfill (by simp) hne
  · exact (hinv.fill q).offs_lt
  · simp only [grown, takeFirst, mbufDataSize] at *
    lia
  · simp only [grown, takeFirst, mbufDataSize] at *
    lia

theorem addLoop_spec [DecidableEq V] {fuel : Nat} {src : List UInt8} (hinv : Inv s c)
    (hfull : src ≠ [] → ((s.queue q).offs + (s.queue q).len) % mbufDataSize = 0)
    (hfuel : src.length ≤ fuel) :
    ∃ k s' c', addLoop fuel s q src = .ok (src.drop k, s') ∧ Added q s c src k s' c' ∧
      (k < src.length → c' freePlace = []) := by
  induction fuel generalizing s c src with
  | zero =>
      obtain rfl : src = [] := List.eq_nil_of_length_eq_zero (by lia)
      exact ⟨0, s, c, rfl, Added.none hinv q [], by simp⟩
  | succ fuel ih =>
      cases src with
      | nil => exact ⟨0, s, c, rfl, Added.none hinv q [], by simp⟩
      | cons b rest =>
          cases hc : c freePlace with
          | nil =>
              refine ⟨0, s, c, ?_, Added.none hinv q _, fun _ => hc⟩
              simp only [addLoop, mbufTryAlloc_nil hinv hc]
              rfl
          | cons m l =>
              let n := min (b :: rest).length mbufDataSize
              have hlen : ((b :: rest).take n).length = n := by simp [n]
              have hn : 0 < n ∧ n ≤ (b :: rest).length ∧ n ≤ mbufDataSize := by
                simp only [mbufDataSize, List.length_cons, n]
                lia
              have htake : (b :: rest).take n ≠ [] := List.ne_nil_of_length_pos (by lia)
              have hround := addRound_added (q := q) hinv hc htake (hfull (by simp)) (by lia)
              rw [hlen] at hround
              have hround' := hround.of_take
              have hoffs : ((grown s q m).queue q).offs + ((grown s q m).queue q).len +
                  ((b :: rest).take n).length < 65536 := by
                have := hinv.offs_add_len_le q
                simp only [grown, takeFirst, hlen, mbufDataSize, mbufPoolSize] at *
                lia
              have hqueue := written_queue (m := m) hoffs
              rw [hlen] at hqueue
              have hfull' : (b :: rest).drop n ≠ [] →
                  (((written (grown s q m) q m ((b :: rest).take n)).queue q).offs +
                    ((written (grown s q m) q m ((b :: rest).take n)).queue q).len) %
                      mbufDataSize = 0 := by
                intro hmore
                have hlt : n < (b :: rest).length := by
                  by_contra hge
                  exact hmore (List.drop_eq_nil_of_le (by lia))
                have hn' : n = mbufDataSize := by simp only [n] at hlt ⊢; lia
                have hz := hfull (by simp)
                rw [hqueue]
                simp only [grown, takeFirst, hn', mbufDataSize] at hz ⊢
                lia
              obtain ⟨k, s', c', hrun, hadd, hex⟩ :=
                ih hround'.inv hfull' (by
                  rw [List.length_drop]
                  lia)
              have hz := hfull (by simp)
              refine ⟨n + k, s', c', ?_, hround'.trans hadd, ?_⟩
              · rw [← List.drop_drop, ← hrun]
                simp only [addLoop, mbufTryAlloc_cons hinv hc]
                simp only [bind, Except.bind, written, hlen, n]
                rw [show ((grown s q m).queue q).offs + ((grown s q m).queue q).len =
                  (s.queue q).offs + (s.queue q).len from rfl, hz]
                rfl
              · intro hlt
                apply hex
                rw [List.length_drop]
                lia

/-- `mbuf_queue_add` stores the first `k` bytes, and all of them unless it used up
the pool. -/
theorem mbufQueueAdd_spec [DecidableEq V] (hinv : Inv s c) (q : Q) (buf : List UInt8) :
    ∃ k s' c', mbufQueueAdd s q buf = .ok (k, s') ∧ Added q s c buf k s' c' ∧
      (k < buf.length → c' freePlace = []) := by
  cases hbuf : buf with
  | nil => exact ⟨0, s, c, rfl, Added.none hinv q _, by simp⟩
  | cons b rest =>
      rw [← hbuf]
      have hne : buf ≠ [] := by simp [hbuf]
      obtain ⟨j, s₁, htail, hadd₁, hfull⟩ := addTail_spec hinv q hne
      have hfull' : buf.drop j ≠ [] →
          ((s₁.queue q).offs + (s₁.queue q).len) % mbufDataSize = 0 := by
        intro hmore
        apply hfull
        by_contra hge
        exact hmore (List.drop_eq_nil_of_le (by lia))
      obtain ⟨k, s', c', hloop, hadd₂, hex⟩ :=
        addLoop_spec hadd₁.inv hfull' (le_refl _)
      have hadd := hadd₁.trans hadd₂
      refine ⟨j + k, s', c', ?_, hadd, ?_⟩
      · have hz : buf.length ≠ 0 := by simp [hbuf]
        have hle := hadd.le
        simp only [mbufQueueAdd, if_neg hz, htail]
        simp only [bind, Except.bind, hloop]
        simp only [pure, Except.pure, List.length_drop]
        congr 2
        lia
      · intro hlt
        apply hex
        rw [List.length_drop]
        lia

end Add

section Get

omit [DecidableEq Q] in
theorem seekLoop_spec {fuel offs pos : Nat} {x : Option Mbuf} {l : List Mbuf}
    (hx : Linked s.heap.next x l) (hoffs : offs < mbufDataSize)
    (hlen : offs + pos ≤ mbufDataSize * l.length) (hfuel : pos ≤ fuel) :
    ∃ y, seekLoop s fuel x offs pos = .ok (y, (offs + pos) % mbufDataSize) ∧
      Linked s.heap.next y (l.drop ((offs + pos) / mbufDataSize)) := by
  induction fuel generalizing x l offs pos with
  | zero =>
      obtain rfl : pos = 0 := by lia
      refine ⟨x, ?_, ?_⟩
      · simp [seekLoop, Nat.mod_eq_of_lt hoffs]
      · simpa [Nat.div_eq_of_lt hoffs] using hx
  | succ fuel ih =>
      cases pos with
      | zero =>
          refine ⟨x, ?_, ?_⟩
          · simp [seekLoop, Nat.mod_eq_of_lt hoffs]
          · simpa [Nat.div_eq_of_lt hoffs] using hx
      | succ pos =>
          by_cases hend : offs + min (pos + 1) (mbufDataSize - offs) = mbufDataSize
          · -- the rest of the buffer is skipped
            cases l with
            | nil => simp at hlen
            | cons b l =>
                obtain ⟨rfl, hrest⟩ := hx
                have hn : min (pos + 1) (mbufDataSize - offs) = mbufDataSize - offs := by lia
                have hlen' : 0 + (pos + 1 - (mbufDataSize - offs)) ≤ mbufDataSize * l.length := by
                  simp only [mbufDataSize, List.length_cons] at *; lia
                obtain ⟨y, hrun, hy⟩ := ih hrest (by decide) hlen' (by lia)
                have hmod : (0 + (pos + 1 - (mbufDataSize - offs))) % mbufDataSize =
                    (offs + (pos + 1)) % mbufDataSize := by
                  simp only [mbufDataSize] at *; lia
                have hdiv : (offs + (pos + 1)) / mbufDataSize =
                    (0 + (pos + 1 - (mbufDataSize - offs))) / mbufDataSize + 1 := by
                  simp only [mbufDataSize] at *; lia
                refine ⟨y, ?_, ?_⟩
                · rw [hn] at hend
                  simp only [seekLoop, hn, if_pos hend, hrun, hmod]
                · rw [hdiv, List.drop_succ_cons]
                  exact hy
          · have hn : min (pos + 1) (mbufDataSize - offs) = pos + 1 := by lia
            have hlt : offs + (pos + 1) < mbufDataSize := by lia
            rw [hn] at hend
            refine ⟨x, ?_, ?_⟩
            · simp only [seekLoop, hn, if_neg hend, Nat.sub_self, Nat.mod_eq_of_lt hlt]
            · simpa [Nat.div_eq_of_lt hlt] using hx

omit [DecidableEq Q] in
theorem copyLoop_spec {fuel offs rem : Nat} {x : Option Mbuf} {l : List Mbuf}
    (hx : Linked s.heap.next x l) (hoffs : offs < mbufDataSize)
    (hlen : offs + rem ≤ mbufDataSize * l.length) (hfuel : rem ≤ fuel) :
    copyLoop s fuel x offs rem = .ok (chainBytes s.data l offs rem) := by
  induction fuel generalizing x l offs rem with
  | zero =>
      obtain rfl : rem = 0 := by lia
      rfl
  | succ fuel ih =>
      cases rem with
      | zero => cases x <;> rfl
      | succ rem =>
          cases l with
          | nil => simp at hlen
          | cons b l =>
              obtain ⟨rfl, hrest⟩ := hx
              let n := min (rem + 1) (mbufDataSize - offs)
              have hn : 0 < n ∧ n ≤ rem + 1 ∧ offs + n ≤ mbufDataSize := by
                simp only [n]; lia
              have hlen' : 0 + (rem + 1 - n) ≤ mbufDataSize * l.length := by
                simp only [mbufDataSize, List.length_cons, n] at *; lia
              have hrun := ih hrest (by decide) hlen' (by lia)
              have hsplit : rem + 1 = n + (rem + 1 - n) := by lia
              have htail : chainBytes s.data (b :: l) (offs + n) (rem + 1 - n) =
                  chainBytes s.data l 0 (rem + 1 - n) := by
                by_cases hz : rem + 1 - n = 0
                · simp [hz]
                · have he : offs + n = mbufDataSize := by simp only [n] at hz ⊢; lia
                  rw [he, chainBytes_cons]
              simp only [copyLoop]
              simp only [bind, Except.bind, hrun, pure, Except.pure, n] at *
              rw [hsplit, chainBytes_add, chainBytes_head hn.2.2, ← hsplit, htail]

omit [DecidableEq Q] in
/-- `mbuf_queue_get` returns the bytes it is asked for, as far as there are any. -/
theorem mbufQueueGet_spec (hinv : Inv s c) (q : Q) (offs len : Nat) :
    mbufQueueGet s q offs len = .ok (((queueBytes s c q).drop offs).take len) := by
  by_cases hout : offs > (s.queue q).len
  · rw [mbufQueueGet, if_pos hout, List.drop_eq_nil_of_le (by simp; lia),
      List.take_nil]
  · rw [mbufQueueGet, if_neg hout]
    have hrem : ((queueBytes s c q).drop offs).take len =
        chainBytes s.data (c (queuePlace q)) ((s.queue q).offs + offs)
          (min len ((s.queue q).len - offs)) := by
      rw [queueBytes, chainBytes_drop _ _ _ (by lia), ← chainBytes_take _ _ _ (min_le_right len _),
        List.take_eq_take_iff]
      simp
    rw [hrem]
    by_cases hz : min len ((s.queue q).len - offs) = 0
    · simp [hz]
    · have hfit := (hinv.fill q).offs_add_len_le
      have hseekLen : (s.queue q).offs + offs ≤ mbufDataSize * (c (queuePlace q)).length := by
        lia
      obtain ⟨y, hseek, hy⟩ := seekLoop_spec (hinv.holds_queue q).linked
        (hinv.fill q).offs_lt hseekLen (le_refl _)
      have hmod : ((s.queue q).offs + offs) % mbufDataSize < mbufDataSize :=
        Nat.mod_lt _ (by decide)
      have hcopyLen : ((s.queue q).offs + offs) % mbufDataSize +
          min len ((s.queue q).len - offs) ≤ mbufDataSize *
            ((c (queuePlace q)).drop (((s.queue q).offs + offs) / mbufDataSize)).length := by
        simp only [mbufDataSize, List.length_drop] at *
        lia
      have hcopy := copyLoop_spec hy hmod hcopyLen (le_refl _)
      simp only [if_neg hz, hseek]
      simp only [bind, Except.bind, hcopy, ← chainBytes_skip]

end Get

section Consume

/-- The first `n` bytes left the queue; with `copy` they are the result `out`. -/
structure Consumed (copy : Bool) (q : Q) (s : MbufSys Q) (c : Place Q V → List Mbuf) (n : Nat)
    (out : List UInt8) (s' : MbufSys Q) (c' : Place Q V → List Mbuf) : Prop where
  inv : Inv s' c'
  frame : Frame (queuePlace q) s c s' c'
  out_eq : out = if copy then (queueBytes s c q).take n else []
  bytes : queueBytes s' c' q = (queueBytes s c q).drop n

variable {copy : Bool}

omit [DecidableEq Q] in
theorem Consumed.none (hinv : Inv s c) (copy : Bool) (q : Q) : Consumed copy q s c 0 [] s c :=
  ⟨hinv, Frame.refl _ _ _, by simp, by simp⟩

omit [DecidableEq Q] in
theorem Consumed.trans {n k : Nat} {out more : List UInt8}
    (h : Consumed copy q s c n out s' c') (h' : Consumed copy q s' c' k more s'' c'') :
    Consumed copy q s c (n + k) (out ++ more) s'' c'' := by
  refine ⟨h'.inv, h.frame.trans h'.frame, ?_, ?_⟩
  · rw [h.out_eq, h'.out_eq, h.bytes]
    cases copy with
    | false => rfl
    | true => simp [List.take_add]
  · rw [h'.bytes, h.bytes, List.drop_drop]

omit [DecidableEq Q] in
theorem headBytes_spec {l : List Mbuf} {n : Nat} (hc : c (queuePlace q) = m :: l)
    (hn : (s.queue q).offs + n ≤ mbufDataSize) (hle : n ≤ (s.queue q).len) (copy : Bool) :
    headBytes s copy (some m) (s.queue q).offs n =
      .ok (if copy then (queueBytes s c q).take n else []) := by
  cases copy with
  | false => rfl
  | true => simp [headBytes, queueBytes, hc, chainBytes_take _ _ _ hle, chainBytes_head hn]

/-- The first buffer of a queue was unlinked and released, with the new length. -/
def headFreed (s : MbufSys Q) (q : Q) (m : Mbuf) (len : Nat) (all : Bool) : MbufSys Q :=
  mbufRelease (unlinkHead (setQueue s q 0 len) q m all) m

theorem unlinkHead_heap {l : List Mbuf} {all : Bool} (hholds : s.heap.Holds (.queue q) (m :: l))
    (hm : m ∉ l) (hall : all = true ↔ l = []) :
    (unlinkHead s q m all).heap =
      s.heap.unlinkAfter (.queue q) (.head (.queue q)) m := by
  have hlast : s.heap.last (.queue q) = .node m ↔ all = true := by
    rw [hholds.last_eq, hall]
    exact lastLink_eq_node_iff hm
  simp only [unlinkHead, unlinkAfter, hlast]

theorem headFreed_heap (hinv : Inv s c) {l : List Mbuf} (hc : c (queuePlace q) = m :: l)
    {len : Nat} {all : Bool} (hall : all = true ↔ l = []) :
    (headFreed s q m len all).heap =
      (s.heap.unlinkAfter (.queue q) (.head (.queue q)) m).insertTail .free m := by
  have hholds := hinv.holds_queue q
  have hnd := hinv.pool.part.nodup (queuePlace q)
  rw [hc] at hholds hnd
  simp only [headFreed, mbufRelease]
  rw [unlinkHead_heap (s := setQueue s q 0 len) hholds (List.nodup_cons.mp hnd).1 hall]
  rfl

theorem headFreed_inv [DecidableEq V] (hinv : Inv s c) {l : List Mbuf}
    (hc : c (queuePlace q) = m :: l) {len : Nat} {all : Bool} (hall : all = true ↔ l = [])
    (hlen : len ≤ (s.queue q).len)
    (hfill : l.length = (len + (mbufDataSize - 1)) / mbufDataSize) :
    Inv (headFreed s q m len all) (moved c (queuePlace q) freePlace l m) := by
  have hne : (queuePlace q : Place Q V) ≠ freePlace := by simp
  have hpos : 0 < s.used := hinv.used_pos hne (b := m) (by simp [hc])
  refine ⟨⟨?_, hinv.max_eq, ?_, hinv.unlocked⟩, ?_⟩
  · rw [headFreed_heap hinv hc hall]
    exact hinv.pool.move (u := []) Sum.inl_injective (by simp) hc
  · have hused := hinv.used_eq
    rw [moved_target, List.length_append, List.length_singleton]
    simp only [headFreed, mbufRelease, unlinkHead, setQueue, used_release hpos hinv.used_le]
    lia
  · intro r
    by_cases hr : r = q
    · subst hr
      have hbound := hinv.offs_add_len_le r
      have hmod : len % 65536 = len := by
        simp only [mbufDataSize, mbufPoolSize] at hbound
        lia
      rw [moved_source hne]
      simp only [headFreed, mbufRelease, unlinkHead, setQueue_self, hmod]
      exact ⟨by simp [mbufDataSize], by simpa using hfill, fun _ => rfl⟩
    · rw [moved_other (by simpa using hr) (by simp)]
      simp only [headFreed, mbufRelease, unlinkHead, setQueue_of_ne hr]
      exact hinv.fill r

theorem headFreed_frame [DecidableEq V] (hinv : Inv s c) {l : List Mbuf}
    (hc : c (queuePlace q) = m :: l) {len : Nat} {all : Bool} (hall : all = true ↔ l = []) :
    Frame (queuePlace q) s c (headFreed s q m len all)
      (moved c (queuePlace q) freePlace l m) := by
  constructor
  · intro r hf hq
    exact moved_other hq hf _ _
  · intro r _ _ b _
    rfl
  · intro r hf hq x hx
    rw [headFreed_heap hinv hc hall]
    exact hinv.pool.move_linked (u := []) (by simp) Sum.inl_injective hc hq hf hx
  · intro r hr
    exact setQueue_of_ne (queuePlace_ne hr) _ _ _

/-- Releasing the first buffer drops its bytes: all that are left, or those up to
the end of the buffer. -/
theorem headFreed_consumed [DecidableEq V] (hinv : Inv s c) {l : List Mbuf}
    (hc : c (queuePlace q) = m :: l) {n len : Nat} (hlen : (s.queue q).len = n + len)
    (hpos : 0 < n) (hn : (s.queue q).offs + n ≤ mbufDataSize)
    (hend : len ≠ 0 → (s.queue q).offs + n = mbufDataSize) (copy : Bool) :
    Consumed copy q s c n (if copy then (queueBytes s c q).take n else [])
      (headFreed s q m len (len == 0)) (moved c (queuePlace q) freePlace l m) := by
  have hne : (queuePlace q : Place Q V) ≠ freePlace := by simp
  have hcount := (hinv.fill q).length_eq
  rw [hc, List.length_cons, hlen] at hcount
  have hfill : l.length = (len + (mbufDataSize - 1)) / mbufDataSize := by
    simp only [mbufDataSize] at *
    lia
  have hall : (len == 0) = true ↔ l = [] := by
    rw [beq_iff_eq, ← List.length_eq_zero_iff]
    simp only [mbufDataSize] at *
    lia
  have hbound := hinv.offs_add_len_le q
  have hmod : len % 65536 = len := by
    simp only [mbufDataSize, mbufPoolSize] at hbound
    lia
  refine ⟨headFreed_inv hinv hc hall (by lia) hfill, headFreed_frame hinv hc hall, rfl, ?_⟩
  have hqueue : (headFreed s q m len (len == 0)).queue q = ⟨0, len⟩ := by
    simp [headFreed, mbufRelease, unlinkHead, hmod]
  have hdata : (headFreed s q m len (len == 0)).data = s.data := rfl
  simp only [queueBytes, hqueue, hdata, moved_source hne, hc]
  rw [chainBytes_drop _ _ _ (by lia), hlen, Nat.add_sub_cancel_left]
  by_cases hz : len = 0
  · simp [hz]
  · rw [hend hz, chainBytes_cons]

/-- Bytes dropped inside the first buffer only move the offset. -/
theorem setQueue_consumed (hinv : Inv s c) {n : Nat} (hlt : n < (s.queue q).len)
    (hn : (s.queue q).offs + n < mbufDataSize) (copy : Bool) :
    Consumed copy q s c n (if copy then (queueBytes s c q).take n else [])
      (setQueue s q ((s.queue q).offs + n) ((s.queue q).len - n)) c := by
  have hbound := hinv.offs_add_len_le q
  have hqueue : (setQueue s q ((s.queue q).offs + n) ((s.queue q).len - n)).queue q =
      ⟨(s.queue q).offs + n, (s.queue q).len - n⟩ := by
    simp only [mbufDataSize, mbufPoolSize] at hbound
    rw [setQueue_self, Nat.mod_eq_of_lt (by lia), Nat.mod_eq_of_lt (by lia)]
  refine ⟨⟨⟨hinv.pool, hinv.max_eq, hinv.used_eq, hinv.unlocked⟩, ?_⟩, ?_, rfl, ?_⟩
  · intro r
    by_cases hr : r = q
    · subst hr
      have hfill := (hinv.fill r).length_eq
      rw [hqueue]
      refine ⟨hn, ?_, ?_⟩
      · rw [hfill]
        congr 1
        simp only
        lia
      · intro hz
        simp only at hz
        lia
    · rw [setQueue_of_ne hr]
      exact hinv.fill r
  · refine ⟨fun _ _ _ => rfl, fun _ _ _ _ _ => rfl, fun _ _ _ _ hx => hx, ?_⟩
    intro r hr
    exact setQueue_of_ne (queuePlace_ne hr) _ _ _
  · simp only [queueBytes, hqueue, setQueue_data]
    rw [chainBytes_drop _ _ _ (by lia)]

theorem consumeLoop_spec [DecidableEq V] {fuel rem : Nat} (hinv : Inv s c) (copy : Bool)
    (hrem : rem ≤ (s.queue q).len) (hfuel : rem ≤ fuel) :
    ∃ out s' c', consumeLoop copy fuel s q (s.heap.next (.head (.queue q))) rem =
      .ok (rem, out, s') ∧ Consumed copy q s c rem out s' c' := by
  induction fuel generalizing s c rem with
  | zero =>
      obtain rfl : rem = 0 := by lia
      exact ⟨[], s, c, rfl, Consumed.none hinv copy q⟩
  | succ fuel ih =>
      cases rem with
      | zero => exact ⟨[], s, c, by simp [consumeLoop], Consumed.none hinv copy q⟩
      | succ rem =>
          have hcount := (hinv.fill q).length_eq
          have hoffs := (hinv.fill q).offs_lt
          have hbound := hinv.offs_add_len_le q
          cases hc : c (queuePlace q) with
          | nil =>
              rw [hc] at hcount
              simp only [mbufDataSize, List.length_nil] at hcount
              lia
          | cons b l =>
              have hfirst : s.heap.next (.head (.queue q)) = some b := by
                have := (hinv.holds_queue q).linked.eq_head?
                rwa [hc] at this
              rw [hfirst]
              simp only [consumeLoop]
              generalize hmin : min (rem + 1) (mbufDataSize - (s.queue q).offs) = n
              have hn : 0 < n ∧ n ≤ rem + 1 ∧ (s.queue q).offs + n ≤ mbufDataSize := by lia
              obtain ⟨len, hlen⟩ : ∃ len, (s.queue q).len = n + len :=
                ⟨(s.queue q).len - n, by lia⟩
              have hlen' : ((s.queue q).len + 65536 - n) % 65536 = len := by
                simp only [mbufDataSize, mbufPoolSize] at hbound
                lia
              have hout := headBytes_spec (s := s) hc hn.2.2 (by lia) copy
              have hfree (all : Bool) :
                  mbufFree (unlinkHead (setQueue s q 0 len) q b all) b =
                    .ok (headFreed s q b len all) :=
                mbufFree_unlocked (s := unlinkHead (setQueue s q 0 len) q b all) hinv.unlocked b
              simp only [bind, Except.bind, hout, hlen', hfree, pure, Except.pure]
              by_cases hz : len = 0
              · -- the queue is empty now, so nothing more was asked for
                have hstep := headFreed_consumed hinv hc hlen hn.1 hn.2.2 (by simp [hz]) copy
                have hall : n = rem + 1 := by lia
                rw [show (len == 0) = true by simpa using hz] at hstep
                simp only [if_pos hz, hall] at hstep ⊢
                exact ⟨_, _, _, rfl, hstep⟩
              · by_cases hend : (s.queue q).offs + n = mbufDataSize
                · have hstep := headFreed_consumed hinv hc hlen hn.1 hn.2.2 (fun _ => hend) copy
                  rw [show (len == 0) = false by simpa using hz] at hstep
                  have hleft : rem + 1 - n ≤ ((headFreed s q b len false).queue q).len := by
                    have := congrArg List.length hstep.bytes
                    simp only [queueBytes_length, List.length_drop] at this
                    lia
                  obtain ⟨more, s', c', hrun, hrest⟩ := ih hstep.inv hleft (by lia)
                  have hall : n + (rem + 1 - n) = rem + 1 := by lia
                  simp only [if_neg hz, if_pos hend, hrun, hall]
                  exact ⟨_, s', c', rfl, hall ▸ hstep.trans hrest⟩
                · -- the bytes asked for end inside the first buffer
                  have hall : n = rem + 1 := by lia
                  have hstep := setQueue_consumed (q := q) hinv (n := n) (by lia) (by lia) copy
                  rw [show (s.queue q).len - n = len by lia] at hstep
                  rw [hall] at hend hstep
                  simp only [if_neg hz, hall, if_neg hend, Nat.sub_self, consumeLoop]
                  exact ⟨_, _, _, rfl, by simpa using hstep⟩

/-- `mbuf_queue_trim` and `mbuf_queue_remove` drop what is asked for, as far as
there is any. -/
theorem consume_spec [DecidableEq V] (hinv : Inv s c) (copy : Bool) (q : Q) (len : Nat) :
    ∃ out s' c', consume copy s q len = .ok (min len (s.queue q).len, out, s') ∧
      Consumed copy q s c (min len (s.queue q).len) out s' c' := by
  by_cases hz : min len (s.queue q).len = 0
  · refine ⟨[], s, c, ?_, ?_⟩
    · simp only [consume, hz, if_true]
    · rw [hz]
      exact Consumed.none hinv copy q
  · obtain ⟨out, s', c', hrun, hcons⟩ :=
      consumeLoop_spec hinv copy (min_le_right len (s.queue q).len) (le_refl _)
    refine ⟨out, s', c', ?_, hcons⟩
    simp only [consume, if_neg hz, hrun]

end Consume

section Free

/-- The state after `mbuf_queue_free`. -/
def queueFreed (s : MbufSys Q) (q : Q) (ch : List Mbuf) : MbufSys Q :=
  mbufQueueInit (listFreed s ch) q

theorem mbufQueueFree_eq (hinv : Inv s c) (q : Q) :
    mbufQueueFree s q = .ok (queueFreed s q (c (queuePlace q))) := by
  have hloop := releaseLoop_place hinv (r := queuePlace q) (by simp) (hinv.holds_queue q).linked
  simp only [mbufQueueFree, mutexLock_unlocked hinv.unlocked]
  simp only [bind, Except.bind, hloop, pure, Except.pure, queueFreed]
  congr 2
  simp [mutexUnlock, listFreed, ← hinv.unlocked]

theorem queueFreed_inv [DecidableEq V] (hinv : Inv s c) (q : Q) :
    Inv (queueFreed s q (c (queuePlace q))) (drained c (queuePlace q) freePlace) := by
  have hne : (queuePlace q : Place Q V) ≠ freePlace := by simp
  refine ⟨⟨?_, hinv.max_eq, listFreed_used hinv hne, hinv.unlocked⟩, ?_⟩
  · exact hinv.pool.drainList Sum.inl_injective (by simp)
  · intro r
    by_cases hr : r = q
    · subst hr
      rw [drained_source hne]
      simp only [queueFreed, mbufQueueInit, setQueue_self]
      exact ⟨by simp [mbufDataSize], by simp [mbufDataSize], fun _ => rfl⟩
    · rw [drained_other (by simpa using hr) (by simp)]
      simp only [queueFreed, mbufQueueInit, setQueue_of_ne hr]
      exact hinv.fill r

theorem queueFreed_frame [DecidableEq V] (hinv : Inv s c) (q : Q) :
    Frame (queuePlace q) s c (queueFreed s q (c (queuePlace q)))
      (drained c (queuePlace q) freePlace) := by
  have hfreed := listFreed_frame hinv (r := queuePlace q) (by simp)
  refine ⟨hfreed.contents, hfreed.data, ?_, ?_⟩
  · intro r hf hq x hx
    exact (hfreed.linked r hf hq x hx).update none (by simp)
  · intro r hr
    exact setQueue_of_ne (queuePlace_ne hr) _ _ _

theorem queueFreed_bytes (s : MbufSys Q) (c : Place Q V → List Mbuf) (q : Q) (ch : List Mbuf) :
    queueBytes (queueFreed s q ch) c q = [] := by
  simp [queueBytes, queueFreed, mbufQueueInit]

end Free

end YardIce.MbufPool

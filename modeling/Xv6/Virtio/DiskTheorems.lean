/-
Xv6.Virtio.DiskTheorems — every step of driver and device keeps the invariant.

§1 the steps of `virtio_disk_rw`, §2 the interrupt handler, §3 the device, §4
runs.
-/
import Xv6.Virtio.DiskInvariant

namespace Xv6.Virtio

open Xv6.Lib Function

variable {B : Type} {d d' : Disk B} {n : Nat}
  {v : Monitor.View n (Disk B) (Place B)} {p p' : Fin n} {k k' : Place B} {q q' : Req B} {x : Idx}
  {i h : Nat} {next : Next (Chan B) (Place B)}

/-! ## §1 `virtio_disk_rw` -/

/-- A step of the holder of the lock that leaves the rings alone. -/
theorem Inv.quiet (hv : Inv v) (hk : v.cont p = some k)
    (hplaces : Places (v.after p (d', next))) (hrings : d'.rings = v.data.rings)
    (hpanic : d'.panic = none) (hno : ∀ h, ¬ Counts v.data h k) (hno' : ∀ k' h,
      next.cont = some k' → ¬ Counts d' h k')
    (hflag : ∀ {p' q x}, p' ≠ p → v.cont p' = some (.wait q x) → d'.flag q.b = v.data.flag q.b)
    (hscan : k ≠ .scanned) (hscan' : next.cont ≠ some .scanned)
    (hinfo : ∀ h, Waiting v h → (d'.info h).status = (v.data.info h).status ∧
      d'.owner h = v.data.owner h) : Inv (v.after p (d', next)) := by
  obtain ⟨l, A, V, hf⟩ := hv.flow
  exact ⟨hplaces, ⟨l, A, V, hf.congr hrings (scanned_after hk hscan hscan')
    (waiting_after hk hno hno' hflag) hinfo⟩, hpanic⟩

theorem alloc_inv [DecidableEq B] (hv : Inv v) (hl : v.lock = some p)
    (hk : v.cont p = some (.alloc q)) :
    Inv (v.after p (allocBody q v.data)) := by
  have ha := allocDescs_spec 3 v.data.free
  -- the place that holds what was allocated
  have hgo : ∀ k' : Place B, k'.held = (allocDescs 3 v.data.free).1 → k'.req = some q →
      (∀ h, ¬ Counts v.data h k') → k' ≠ .scanned →
      Knows { v.data with free := (allocDescs 3 v.data.free).2 } k' →
      Inv (v.after p
        (({ v.data with free := (allocDescs 3 v.data.free).2 }, .goto k') : Step B)) := by
    intro k' hheld hreq hcounts hscan hknows
    refine hv.quiet hk ?_ rfl hv.panic (fun _ => id) ?_ (fun _ _ => rfl) (by rintro ⟨⟩) ?_
      fun _ _ => ⟨rfl, rfl⟩
    · refine hv.places.step hl hk ?_ ?_ ?_ ?_ (.inl rfl) ?_ ?_
      · rintro _ ⟨⟩ _
        rfl
      · rintro _ ⟨⟩
        rw [hheld]
        exact ⟨ha.nodup, fun i hi => ⟨(ha.were i hi).1, .inr (ha.were i hi).2⟩⟩
      · intro i hi
        have hnow := ha.now i
        have hnone : (Place.alloc q).held = [] := rfl
        rw [← Bool.not_eq_true, hnow]
        simp only [Next.cont, Option.some.injEq, exists_eq_left', hheld, hnone,
          List.not_mem_nil, not_false_eq_true, and_true]
        by_cases hmem : i ∈ (allocDescs 3 v.data.free).1
        · simp [hmem]
        · simp [hmem]
      · rintro _ ⟨⟩
        exact hreq
      · rintro _ ⟨⟩
        exact hknows
      · intro p' q' x hne hp'
        exact knows_wait (hv.places.knows hp') (fun _ _ => rfl) rfl rfl rfl id
    · rintro _ h ⟨⟩
      exact hcounts h
    · intro hs
      exact hscan (Option.some.inj hs)
  unfold allocBody
  dsimp only
  split
  case h_1 i0 i1 i2 hthree =>
    exact hgo (.fill q ⟨i0, i1, i2⟩) hthree.symm rfl (fun _ => id) (by rintro ⟨⟩) trivial
  case h_2 hno =>
    refine hgo (.undo q (allocDescs 3 v.data.free).1) rfl rfl (fun _ => id) (by rintro ⟨⟩) ?_
    -- the last `alloc_desc` failed, so nothing is free
    have hshort : (allocDescs 3 v.data.free).1.length < 3 := by
      refine Nat.lt_of_le_of_ne ha.length fun hlen => ?_
      obtain ⟨i0, i1, i2, heq⟩ := List.length_eq_three.mp hlen
      exact hno i0 i1 i2 heq
    show freeCount (allocDescs 3 v.data.free).2 + _ < 3
    rw [freeCount_zero (ha.short hshort)]
    omega

theorem freeDesc_eq (hlt : i < num) (hf : d.free i = false) :
    freeDesc i d = { d with desc := update d.desc i .zero, free := update d.free i true } := by
  unfold freeDesc
  rw [if_neg (by omega), if_neg (by simp [hf])]

/-- `free_desc` of the first descriptor a process has. -/
theorem giveBack_inv [DecidableEq B] {rest : List Nat} (k' : Place B) (hv : Inv v)
    (hl : v.lock = some p)
    (hk : v.cont p = some k) (hheld : k.held = i :: rest) (hno : ∀ h, ¬ Counts v.data h k)
    (hheld' : k'.held = rest) (hreq : k'.req = k.req) (hno' : ∀ d h, ¬ Counts d h k')
    (hscan : k ≠ .scanned) (hscan' : k' ≠ .scanned)
    (hknows : (∀ j ∈ rest, update v.data.desc i .zero j = v.data.desc j) →
      Knows { v.data with
        desc := update v.data.desc i .zero, free := update v.data.free i true } k') :
    (freeDesc i v.data).panic = none ∧
      Inv (v.after p ((freeDesc i v.data, .wake .free k') : Step B)) := by
  have hmem : i ∈ k.held := by
    rw [hheld]
    exact List.mem_cons_self ..
  have hlt := hv.places.range hk hmem
  have hfree : v.data.free i = false := (hv.places.marks i hlt).mpr ⟨p, k, hk, hmem⟩
  have hnodup := hv.places.nodup hk
  rw [hheld] at hnodup
  obtain ⟨hfresh, hrest⟩ := List.nodup_cons.mp hnodup
  rw [freeDesc_eq hlt hfree]
  refine ⟨hv.panic, hv.quiet hk ?_ rfl hv.panic hno ?_ (fun _ _ => rfl) hscan ?_
    fun _ _ => ⟨rfl, rfl⟩⟩
  · refine hv.places.step hl hk ?_ ?_ ?_ ?_ (.inl rfl) ?_ ?_
    · rintro _ ⟨⟩ _
      rfl
    · rintro _ ⟨⟩
      rw [hheld']
      refine ⟨hrest, fun j hj => ?_⟩
      have hj' : j ∈ k.held := by
        rw [hheld]
        exact List.mem_cons_of_mem _ hj
      exact ⟨hv.places.range hk hj', .inl hj'⟩
    · intro j hj
      simp only [Next.cont, Option.some.injEq, exists_eq_left', hheld', hheld, List.mem_cons,
        not_or]
      by_cases hji : j = i
      · subst hji
        simp [hfresh]
      · rw [update_of_ne hji]
        by_cases hjr : j ∈ rest
        · have hjf : v.data.free j = false := by
            refine (hv.places.marks j hj).mpr ⟨p, k, hk, ?_⟩
            rw [hheld]
            exact List.mem_cons_of_mem _ hjr
          simp [hjr, hjf]
        · simp [hjr, hji]
    · rintro _ ⟨⟩
      exact hreq
    · rintro _ ⟨⟩
      refine hknows fun j hj => update_of_ne ?_ ..
      rintro rfl
      exact hfresh hj
    · intro p' q' x hne hp'
      refine knows_wait (hv.places.knows hp') (fun j hj => update_of_ne ?_ ..) rfl rfl rfl id
      rintro rfl
      exact hne (hv.places.apart hp' hk hj hmem)
  · rintro _ h ⟨⟩
    exact hno' _ h
  · intro hs
    exact hscan' (Option.some.inj hs)

/-- The lock is given up at a place where one may be without it. -/
theorem Inv.unlock (hv : Inv v) (hl : v.lock = some p) (hk : v.cont p = some k)
    (hout : k.inner = false) : Inv { v with lock := none } := by
  have hp := hv.places
  refine ⟨⟨fun {p' k'} hp' hin => ?_, hp.range, hp.nodup, hp.apart, hp.marks, hp.busy, hp.bufs,
    hp.knows⟩, ?_, hv.panic⟩
  · have hlock := hp.inner hp' hin
    rw [hl] at hlock
    cases hlock
    have hkk : k = k' := Option.some.inj (hk.symm.trans hp')
    rw [← hkk, hout] at hin
    cases hin
  · obtain ⟨l, A, V, hf⟩ := hv.flow
    exact ⟨l, A, V, hf.avail, hf.used, hf.late, hf.nodup, hf.who, hf.status, hf.completed,
      hf.posted⟩

/-- A step that keeps the descriptors of the process. -/
theorem Places.keep [DecidableEq B] (hp : Places v) (hl : v.lock = some p) (hk : v.cont p = some k)
    (hn : next.cont = some k') (hin : k'.inner = true → next.keeps = true)
    (hheld : k'.held = k.held) (hreq : k'.req = k.req) (hfree : d'.free = v.data.free)
    (hbusy : d'.busy = v.data.busy) (hknows : Knows d' k')
    (hothers : ∀ {p' q x}, p' ≠ p → v.cont p' = some (.wait q x) → Knows d' (.wait q x)) :
    Places (v.after p (d', next)) := by
  refine hp.step hl hk ?_ ?_ ?_ ?_ (.inl hbusy) ?_ hothers
  all_goals simp only [hn, Option.some.injEq, forall_eq']
  · exact hin
  · rw [hheld]
    exact ⟨hp.nodup hk, fun i hi => ⟨hp.range hk hi, .inl hi⟩⟩
  · intro i hi
    rw [hfree]
    simp only [exists_eq_left', hheld]
    by_cases hmem : i ∈ k.held
    · simp [hmem, (hp.marks i hi).mpr ⟨p, k, hk, hmem⟩]
    · simp [hmem]
  · exact hreq
  · exact hknows

theorem undo_inv [DecidableEq B] {left : List Nat} (hv : Inv v) (hl : v.lock = some p)
    (hk : v.cont p = some (.undo q left)) : Inv (v.after p (undoBody q left v.data)) := by
  have hshort : freeCount v.data.free + left.length < 3 := hv.places.knows hk
  cases left with
  | nil =>
    refine hv.quiet hk ?_ rfl hv.panic (fun _ => id) ?_ (fun _ _ => rfl) (by rintro ⟨⟩)
      (by rintro ⟨⟩)
      fun _ _ => ⟨rfl, rfl⟩
    · exact hv.places.keep hl hk rfl (by rintro ⟨⟩) rfl rfl rfl rfl trivial
        fun _ hp' => hv.places.knows hp'
    · rintro _ h ⟨⟩
      exact id
  | cons i left =>
    obtain ⟨hpanic, hinv⟩ := giveBack_inv (.undo q left) hv hl hk rfl (fun _ => id) rfl rfl
      (fun _ _ => id) (by rintro ⟨⟩) (by rintro ⟨⟩) fun _ => by
        have hle := freeCount_free v.data.free i
        rw [List.length_cons] at hshort
        show freeCount (update v.data.free i true) + left.length < 3
        omega
    unfold undoBody
    dsimp only
    rw [if_pos hpanic]
    exact hinv

theorem chain_inv [DecidableEq B] {rest : List Nat} (hv : Inv v) (hl : v.lock = some p)
    (hk : v.cont p = some (.chain q i rest)) : Inv (v.after p (chainBody q i rest v.data)) := by
  obtain ⟨hlinked, hseen⟩ : Linked v.data.desc (i :: rest) ∧ Seen v.data q := hv.places.knows hk
  unfold chainBody
  cases rest with
  | nil =>
    have hmore : (v.data.desc i).more = false := hlinked
    obtain ⟨hpanic, hinv⟩ := giveBack_inv (.done q) hv hl hk rfl (fun _ => id) rfl rfl
      (fun _ _ => id) (by rintro ⟨⟩) (by rintro ⟨⟩) fun _ => hseen
    rw [if_pos hpanic, hmore]
    exact hinv
  | cons j rest =>
    obtain ⟨hmore, hnext, hlinked'⟩ := hlinked
    obtain ⟨hpanic, hinv⟩ := giveBack_inv (.chain q j rest) hv hl hk rfl (fun _ => id) rfl rfl
      (fun _ _ => id) (by rintro ⟨⟩) (by rintro ⟨⟩) fun hsame => ⟨hlinked'.congr hsame, hseen⟩
    rw [if_pos hpanic, hmore, if_pos rfl, hnext]
    exact hinv

theorem more_next (write : Bool) :
    ((if write then 0 else flagWrite) ||| flagNext) &&& flagNext ≠ 0 := by
  cases write <;> decide

theorem fill_inv [DecidableEq B] (hv : Inv v) (hl : v.lock = some p)
    (hk : v.cont p = some (.fill q x)) : Inv (v.after p (fillBody q x v.data)) := by
  have hnodup : [x.i0, x.i1, x.i2].Nodup := hv.places.nodup hk
  have h01 : x.i0 ≠ x.i1 := by
    intro e
    simp [e] at hnodup
  have h02 : x.i0 ≠ x.i2 := by
    intro e
    simp [e] at hnodup
  have h12 : x.i1 ≠ x.i2 := by
    intro e
    simp [e] at hnodup
  have hother : ∀ {p' q' x' i}, p' ≠ p → v.cont p' = some (.wait q' x') → i ∈ x'.list →
      i ≠ x.i0 ∧ i ≠ x.i1 ∧ i ≠ x.i2 := by
    intro p' q' x' i hne hp' hi
    have hno : ∀ j ∈ x.list, i ≠ j := fun j hj hij => by
      subst hij
      exact hne (hv.places.apart hp' hk hi hj)
    exact ⟨hno _ (by simp [Idx.list]), hno _ (by simp [Idx.list]), hno _ (by simp [Idx.list])⟩
  have hbuf : ∀ {p' q' x'}, p' ≠ p → v.cont p' = some (.wait q' x') → q'.b ≠ q.b :=
    fun hne hp' hb => hne (hv.places.bufs hp' hk rfl rfl hb)
  refine hv.quiet hk ?_ rfl hv.panic (fun _ => id) ?_ (fun hne hp' => ?_) (by rintro ⟨⟩)
    (by rintro ⟨⟩) fun h hw => ?_
  · refine hv.places.keep hl hk rfl (fun _ => rfl) rfl rfl rfl rfl ?_ ?_
    · refine ⟨⟨⟨?_, ?_, ?_, ?_, ?_⟩, ?_⟩, ?_, ?_⟩
      · simp [h01, h02, Desc.more, flagNext]
      · simp [h01, h02]
      · simp only [ne_eq, h12, not_false_eq_true, update_of_ne, update_self,
          Desc.more, decide_eq_true_eq]
        exact more_next q.write
      · simp [h12]
      · simp [Linked, Desc.more, flagWrite, flagNext]
      · simp
      · simp
      · simp
    · intro p' q' x' hne hp'
      refine knows_wait (hv.places.knows hp') (fun i hi => ?_) ?_ rfl ?_ id
      · obtain ⟨h0, h1, h2⟩ := hother hne hp' hi
        simp [h0, h1, h2]
      · have h0 := (hother hne hp' (i := x'.i0) (by simp [Idx.list])).1
        simp [h0]
      · simp [hbuf hne hp']
  · rintro _ h ⟨⟩
    exact id
  · simp [hbuf hne hp']
  · have hne : h ≠ x.i0 := by
      rintro rfl
      exact hv.places.waiting_ne hk (by simp [Place.held, Idx.list]) (fun _ => id) hw
    simp [hne]

/-- No handler is in the middle of a turn while another process has the lock. -/
theorem Flow.early {l A V : List Nat} (hf : Flow v l A V) (hp : Places v) (hl : v.lock = some p)
    (hk : v.cont p = some k) (hno : k ≠ .scanned) : l = [] ∧ ∀ p', v.cont p' ≠ some .scanned := by
  rcases hf.late with hnil | ⟨_, p', hp'⟩
  · exact hnil
  · have hlock := hp.inner hp' rfl
    rw [hl] at hlock
    cases hlock
    exact absurd (Option.some.inj (hk.symm.trans hp')) hno

section

variable (hv : Inv v) (hl : v.lock = some p)
include hv hl

theorem post_inv [DecidableEq B]
    (hk : v.cont p = some (.post q x)) : Inv (v.after p (postBody q x v.data)) := by
  have hready : Chained v.data x ∧ (v.data.info x.i0).b = some q.b ∧ v.data.flag q.b = true :=
    hv.places.knows hk
  obtain ⟨l, A, V, hf⟩ := hv.flow
  obtain ⟨hnil, hnone⟩ := hf.early hv.places hl hk (by rintro ⟨⟩)
  have hroom := hf.length_lt hv.places hk (i := x.i0) (by simp [Place.held, Idx.list]) (fun _ => id)
    hnil
  have hplaces : Places (v.after p (postBody q x v.data)) := by
    refine hv.places.keep hl hk rfl (fun _ => rfl) rfl rfl rfl rfl ⟨hready, update_self ..⟩ ?_
    intro p' q' x' _ hp'
    exact knows_wait (hv.places.knows hp') (fun _ _ => rfl) rfl rfl rfl id
  have hwho : ∀ h, Waiting (v.after p (postBody q x v.data)) h ↔ Waiting v h :=
    waiting_after hk (fun _ => id) (by rintro _ h ⟨⟩; exact id) (fun _ _ => rfl)
  refine ⟨hplaces, ⟨l, A, V, hf.avail.write num_dvd (by omega), hf.used,
    .inl ⟨hnil, fun p' hp' => ?_⟩, hf.nodup,
    fun h => (hf.who h).trans (hwho h).symm, hf.status, hf.completed, hf.posted⟩, hv.panic⟩
  exact hnone p' ((scanned_after hk (by rintro ⟨⟩) (by rintro ⟨⟩) p').mp hp')

theorem bump_inv [DecidableEq B]
    (hk : v.cont p = some (.bump q x)) : Inv (v.after p (bumpBody q x v.data)) := by
  obtain ⟨⟨hchained, hinfo, hflag⟩, hslot⟩ : (Chained v.data x ∧ (v.data.info x.i0).b = some q.b ∧
    v.data.flag q.b = true) ∧ v.data.availRing (cellOf num v.data.availIdx) = x.i0 :=
    hv.places.knows hk
  obtain ⟨l, A, V, hf⟩ := hv.flow
  obtain ⟨rfl, hnone⟩ := hf.early hv.places hl hk (by rintro ⟨⟩)
  have hmem : x.i0 ∈ (Place.bump q x).held := by simp [Place.held, Idx.list]
  have hroom := hf.length_lt hv.places hk hmem (fun _ => id) rfl
  have hfresh : ¬ Waiting v x.i0 := hv.places.waiting_ne hk hmem (fun _ => id)
  have hplaces : Places (v.after p (bumpBody q x v.data)) := by
    refine hv.places.keep hl hk rfl (fun _ => rfl) rfl rfl rfl rfl
      ⟨hchained, fun _ => ⟨hinfo, update_self ..⟩, fun hno => ?_⟩ ?_
    · have hno' : v.data.flag q.b = false := hno
      rw [hflag] at hno'
      cases hno'
    · intro p' q' x' hne hp'
      refine knows_wait (hv.places.knows hp') (fun _ _ => rfl) rfl (update_of_ne ?_ ..) rfl id
      intro heq
      exact hne (hv.places.apart hp' hk (i := x.i0) (by simp [Place.held, Idx.list, heq]) hmem)
  -- one more process waits
  have hwho : ∀ h, Waiting (v.after p (bumpBody q x v.data)) h ↔ Waiting v h ∨ h = x.i0 := by
    intro h
    refine (waiting_add hk (fun _ => id) (fun _ _ => rfl) h).trans (or_congr_right ⟨?_, ?_⟩)
    · rintro ⟨_, ⟨⟩, hc⟩
      exact hc.1.symm
    · exact fun e => ⟨_, rfl, e.symm, hflag⟩
  have hnot : x.i0 ∉ A ++ v.data.taken ++ V := fun hm => hfresh ((hf.who _).mp hm)
  have hperm : ((A ++ [x.i0]) ++ v.data.taken ++ V).Perm (x.i0 :: (A ++ v.data.taken ++ V)) := by
    simp
  refine ⟨hplaces, ⟨[], A ++ [x.i0], V, hf.avail.publish (by omega) hslot, hf.used,
    .inl ⟨rfl, fun p' hp' => ?_⟩, ?_, fun h => ?_, hf.status, ?_, ?_⟩, hv.panic⟩
  · exact hnone p' ((scanned_after hk (by rintro ⟨⟩) (by rintro ⟨⟩) p').mp hp')
  · exact hperm.nodup_iff.mpr (List.nodup_cons.mpr ⟨hnot, hf.nodup⟩)
  · rw [hwho h, ← hf.who h]
    refine (hperm.mem_iff).trans ?_
    rw [List.mem_cons, or_comm]
  · have hmap : V.map (update v.data.owner x.i0 (some (q.id, q.b))) = V.map v.data.owner := by
      refine List.map_congr_left fun h hh => update_of_ne ?_ ..
      rintro rfl
      exact hnot (List.mem_append_right _ hh)
    show v.data.completed = v.data.consumed ++ V.map (update v.data.owner x.i0 _)
    rw [hmap]
    exact hf.completed
  · show v.data.posted ++ [x.i0] = v.data.fetched ++ (A ++ [x.i0])
    rw [hf.posted, List.append_assoc]

theorem wait_inv [DecidableEq B]
    (hk : v.cont p = some (.wait q x)) : Inv (v.after p (waitBody q x v.data)) := by
  obtain ⟨hchained, _, hgone⟩ : Knows v.data (.wait q x) := hv.places.knows hk
  unfold waitBody
  split
  case isTrue =>
    have hsame : v.after p ((v.data, .sleep (.buf q.b) (.wait q x)) : Step B) =
        { v with lock := none } := by
      unfold Monitor.View.after
      congr 1
      exact (congrArg (update v.cont p) hk.symm).trans (update_eq_self ..)
    rw [hsame]
    exact hv.unlock hl hk rfl
  case isFalse hflag =>
    have hflag' : v.data.flag q.b = false := by simpa using hflag
    refine hv.quiet hk ?_ rfl hv.panic ?_ ?_ (fun _ _ => rfl) (by rintro ⟨⟩) (by rintro ⟨⟩)
      fun _ _ => ⟨rfl, rfl⟩
    · exact hv.places.keep hl hk rfl (fun _ => rfl) rfl rfl rfl rfl ⟨hchained.1, hgone hflag'⟩
        fun _ hp' => hv.places.knows hp'
    · exact fun h hc => hflag hc.2
    · rintro _ h ⟨⟩
      exact id

theorem finish_inv [DecidableEq B]
    (hk : v.cont p = some (.finish q x)) : Inv (v.after p (finishBody q x v.data)) := by
  have hmem : x.i0 ∈ (Place.finish q x).held := by simp [Place.held, Idx.list]
  refine hv.quiet hk ?_ rfl hv.panic (fun _ => id) ?_ (fun _ _ => rfl) (by rintro ⟨⟩)
    (by rintro ⟨⟩) fun h hw => ?_
  · refine hv.places.keep hl hk rfl (fun _ => rfl) rfl rfl rfl rfl (hv.places.knows hk) ?_
    intro p' q' x' hne hp'
    refine knows_wait (hv.places.knows hp') (fun _ _ => rfl) ?_ rfl rfl id
    have h0 : x'.i0 ≠ x.i0 := fun heq =>
      hne (hv.places.apart hp' hk (i := x.i0) (by simp [Place.held, Idx.list, heq]) hmem)
    simp [h0]
  · rintro _ h ⟨⟩
    exact id
  · have hne : h ≠ x.i0 := by
      rintro rfl
      exact hv.places.waiting_ne hk hmem (fun _ => id) hw
    simp [hne]

theorem done_inv [DecidableEq B]
    (hk : v.cont p = some (.done q)) :
    Inv (v.after p (({ v.data with busy := update v.data.busy q.b false }, .leave) : Step B)) := by
  refine hv.quiet hk ?_ rfl hv.panic (fun _ => id) (by rintro _ _ ⟨⟩) (fun _ _ => rfl)
    (by rintro ⟨⟩) (by rintro ⟨⟩)
    fun _ _ => ⟨rfl, rfl⟩
  refine hv.places.step hl hk (by rintro _ ⟨⟩) (by rintro _ ⟨⟩) ?_ (by rintro _ ⟨⟩)
    (.inr ⟨rfl, q, rfl, rfl⟩) (by rintro _ ⟨⟩) ?_
  · simp [Next.cont, Place.held]
  · intro p' q' x' _ hp'
    exact knows_wait (hv.places.knows hp') (fun _ _ => rfl) rfl rfl rfl id

end

/-! ## §2 `virtio_disk_intr` -/

theorem intr_inv [DecidableEq B] (hv : Inv v) (hl : v.lock = some p) (hk : v.cont p = some .intr) :
    Inv (v.after p ((v.data, .goto .scan) : Step B)) := by
  refine hv.quiet hk ?_ rfl hv.panic (fun _ => id) ?_ (fun _ _ => rfl) (by rintro ⟨⟩) (by rintro ⟨⟩)
    fun _ _ => ⟨rfl, rfl⟩
  · exact hv.places.keep hl hk rfl (fun _ => rfl) rfl rfl rfl rfl trivial
      fun _ hp' => hv.places.knows hp'
  · rintro _ h ⟨⟩
    exact id

/-- What the handler finds in the used ring: the chain of a process that waits,
completed. -/
theorem Inv.found (hv : Inv v) (hl : v.lock = some p) (hk : v.cont p = some .scan)
    (hne : v.data.usedIdx ≠ v.data.usedTop) :
    ∃ A V p' q x, Flow v [] A (x.i0 :: V) ∧ v.cont p' = some (.wait q x) ∧ p' ≠ p ∧
      v.data.usedRing (cellOf num v.data.usedIdx) = x.i0 ∧ x.i0 < num ∧
      v.data.flag q.b = true ∧ (v.data.info x.i0).status = 0 ∧
      (v.data.info x.i0).b = some q.b ∧ v.data.owner x.i0 = some (q.id, q.b) := by
  obtain ⟨l, A, V, hf⟩ := hv.flow
  obtain ⟨rfl, -⟩ := hf.early hv.places hl hk (by rintro ⟨⟩)
  cases V with
  | nil => exact absurd ((hf.used.empty_iff num_lt).mpr rfl) hne
  | cons h V =>
    obtain ⟨p', q, x, hp', rfl, hflag, hlt⟩ :=
      hv.places.waiting ((hf.who h).mp (List.mem_append_right _ (List.mem_cons_self ..)))
    obtain ⟨_, hmine, _⟩ : Knows v.data (.wait q x) := hv.places.knows hp'
    obtain ⟨hb, howner⟩ := hmine hflag
    have hpp : p' ≠ p := by
      rintro rfl
      rw [hk] at hp'
      cases hp'
    exact ⟨A, V, p', q, x, hf, hp', hpp, hf.used.head, hlt, hflag,
      hf.status _ (List.mem_cons_self ..), hb, howner⟩

/-- So the handler clears the flag of the buffer of that process. -/
theorem scanBody_eq [DecidableEq B] (hring : d.usedRing (cellOf num d.usedIdx) = x.i0)
    (hne : d.usedIdx ≠ d.usedTop) (hlt : x.i0 < num) (hstatus : (d.info x.i0).status = 0)
    (hb : (d.info x.i0).b = some q.b) (howner : d.owner x.i0 = some (q.id, q.b)) :
    scanBody d = ({ d with
      flag := update d.flag q.b false
      consumed := d.consumed ++ [some (q.id, q.b)] }, .wake (.buf q.b) .scanned) := by
  unfold scanBody
  rw [if_neg hne, hring, if_neg (by omega), if_neg (by simp [hstatus])]
  simp only [hb, howner, Option.map_some]

/-- The others that wait, once the handler has seen the first of the used ring. -/
theorem Flow.rest {a : Nat} {A V : List Nat} (hf : Flow v [] A (a :: V)) :
    ([a] ++ (A ++ v.data.taken ++ V)).Nodup ∧
      ∀ h, h ∈ A ++ v.data.taken ++ V ↔ Waiting v h ∧ h ≠ a := by
  have hperm : (A ++ v.data.taken ++ a :: V).Perm (a :: (A ++ v.data.taken ++ V)) :=
    List.perm_middle
  have hnodup := hperm.nodup_iff.mp hf.nodup
  refine ⟨hnodup, fun h => ?_⟩
  rw [← hf.who h, hperm.mem_iff, List.mem_cons]
  constructor
  · intro hm
    refine ⟨.inr hm, ?_⟩
    rintro rfl
    exact (List.nodup_cons.mp hnodup).1 hm
  · exact fun ⟨hm, hne⟩ => hm.resolve_left hne

/-- They go on waiting when the flag of that request's buffer is cleared. -/
theorem scan_waiting [DecidableEq B] (hv : Inv v) (hk : v.cont p = some .scan)
    (hp1 : v.cont p1 = some (.wait q x)) (hflag : d'.flag = update v.data.flag q.b false)
    (h : Nat) :
    Waiting (v.after p ((d', .wake (.buf q.b) .scanned) : Step B)) h ↔ Waiting v h ∧ h ≠ x.i0 := by
  constructor
  · rintro ⟨p', k', hp', hc⟩
    rcases cont_update hp' with ⟨_, ⟨⟩⟩ | ⟨_, hold⟩
    · exact hc.elim
    · cases k' with
      | wait q' x' =>
        obtain ⟨hx, hf'⟩ := hc
        replace hf' : d'.flag q'.b = true := hf'
        rw [hflag] at hf'
        have hqb : q'.b ≠ q.b := by
          intro hqb
          rw [hqb, update_self] at hf'
          cases hf'
        rw [update_of_ne hqb] at hf'
        refine ⟨⟨p', .wait q' x', hold, hx, hf'⟩, ?_⟩
        rintro rfl
        obtain rfl : p' = p1 := hv.places.apart hold hp1 (i := x'.i0)
          (by simp [Place.held, Idx.list]) (by simp [Place.held, Idx.list, hx])
        rw [hp1] at hold
        cases hold
        exact hqb rfl
      | _ => exact hc.elim
  · rintro ⟨hw, hne⟩
    obtain ⟨p', q', x', hp', rfl, hf', _⟩ := hv.places.waiting hw
    have hpne : p' ≠ p := by
      rintro rfl
      rw [hk] at hp'
      cases hp'
    have hqb : q'.b ≠ q.b := by
      intro hqb
      obtain rfl : p' = p1 := hv.places.bufs hp' hp1 rfl rfl hqb
      rw [hp1] at hp'
      cases hp'
      exact hne rfl
    refine ⟨p', .wait q' x', (update_of_ne hpne ..).trans hp', rfl, ?_⟩
    show d'.flag q'.b = true
    rw [hflag, update_of_ne hqb]
    exact hf'

theorem scan_inv [DecidableEq B] (hv : Inv v) (hl : v.lock = some p) (hk : v.cont p = some .scan) :
    Inv (v.after p (scanBody v.data)) := by
  by_cases hne : v.data.usedIdx = v.data.usedTop
  · rw [show scanBody v.data = (v.data, .leave) from if_pos hne]
    refine hv.quiet hk ?_ rfl hv.panic (fun _ => id) (by rintro _ _ ⟨⟩) (fun _ _ => rfl)
      (by rintro ⟨⟩) (by rintro ⟨⟩)
      fun _ _ => ⟨rfl, rfl⟩
    refine hv.places.step hl hk (by rintro _ ⟨⟩) (by rintro _ ⟨⟩) ?_ (by rintro _ ⟨⟩) (.inl rfl)
      (by rintro _ ⟨⟩)
      fun _ hp' => hv.places.knows hp'
    simp [Next.cont, Place.held]
  · obtain ⟨A, V, p1, q, x, hf, hp1, hpp, hring, hlt, hflag, hstatus, hb, howner⟩ :=
      hv.found hl hk hne
    rw [scanBody_eq hring hne hlt hstatus hb howner]
    obtain ⟨hnodup, hrest⟩ := hf.rest
    refine ⟨?_, ⟨[x.i0], A, V, hf.avail, hf.used, .inr ⟨⟨x.i0, hlt, rfl⟩, p, update_self ..⟩,
      hnodup, fun h => (hrest h).trans (scan_waiting hv hk hp1 rfl h).symm,
      fun h hh => hf.status h (List.mem_cons_of_mem _ hh), ?_, hf.posted⟩, hv.panic⟩
    · refine hv.places.keep hl hk rfl (fun _ => rfl) rfl rfl rfl rfl trivial
        fun {p' q' x'} _ hp' => ?_
      have hold := hv.places.knows hp'
      by_cases hqb : q'.b = q.b
      · -- the process whose request this was
        obtain rfl : p' = p1 := hv.places.bufs hp' hp1 rfl rfl hqb
        rw [hp1] at hp'
        cases hp'
        refine ⟨hold.1, fun htrue => ?_, fun _ => ?_⟩
        · simp at htrue
        · exact List.mem_append_right _ (List.mem_singleton.mpr rfl)
      · refine knows_wait hold (fun _ _ => rfl) rfl rfl ?_ fun hs => List.mem_append_left _ hs
        simp [hqb]
    · show v.data.completed = (v.data.consumed ++ [some (q.id, q.b)]) ++ V.map v.data.owner
      rw [hf.completed, List.map_cons, howner, List.append_assoc]
      rfl

theorem scanned_inv [DecidableEq B] (hv : Inv v) (hl : v.lock = some p)
    (hk : v.cont p = some .scanned) :
    Inv (v.after p (({ v.data with usedIdx := v.data.usedIdx + 1 }, .goto .scan) : Step B)) := by
  obtain ⟨l, A, V, hf⟩ := hv.flow
  rcases hf.late with ⟨_, hno⟩ | ⟨⟨h, hlt, rfl⟩, _⟩
  · exact absurd hk (hno p)
  have hwho : ∀ h, Waiting (v.after p
      (({ v.data with usedIdx := v.data.usedIdx + 1 }, .goto .scan) : Step B)) h ↔ Waiting v h :=
    waiting_after hk (fun _ => id) (by rintro _ h ⟨⟩; exact id) (fun _ _ => rfl)
  refine ⟨?_, ⟨[], A, V, hf.avail, hf.used.pop, .inl ⟨rfl, fun p' hp' => ?_⟩, ?_,
    fun h => (hf.who h).trans (hwho h).symm, hf.status, hf.completed, hf.posted⟩, hv.panic⟩
  · refine hv.places.keep hl hk rfl (fun _ => rfl) rfl rfl rfl rfl trivial ?_
    intro p' q' x' _ hp'
    exact knows_wait (hv.places.knows hp') (fun _ _ => rfl) rfl rfl rfl id
  · rcases cont_update hp' with ⟨_, ⟨⟩⟩ | ⟨hne, hold⟩
    have hlock := hv.places.inner hold rfl
    rw [hl] at hlock
    exact hne (Option.some.inj hlock).symm
  · exact (List.nodup_cons.mp hf.nodup).2

/-! ## §3 The device -/

/-- A step of the device changes the rings and status bytes only. -/
theorem Places.device (hp : Places v) (hfree : d'.free = v.data.free)
    (hbusy : d'.busy = v.data.busy)
    (hknows : ∀ {p k}, v.cont p = some k → Knows v.data k → Knows d' k) :
    Places { v with data := d' } := by
  refine ⟨hp.inner, hp.range, hp.nodup, hp.apart, fun i hi => ?_, fun hk hq => ?_, hp.bufs,
    fun hk => hknows hk (hp.knows hk)⟩
  · rw [hfree]
    exact hp.marks i hi
  · rw [hbusy]
    exact hp.busy hk hq

/-- Who waits depends on the flags only. -/
theorem waiting_data (hflag : d'.flag = v.data.flag) (h : Nat) :
    Waiting { v with data := d' } h ↔ Waiting v h := by
  refine exists_congr fun p => exists_congr fun k => and_congr_right fun _ => ?_
  cases k with
  | wait q x =>
    show x.i0 = h ∧ d'.flag q.b = true ↔ _
    rw [hflag]
    rfl
  | _ => exact Iff.rfl

theorem fetch_inv (hv : Inv v) : Inv { v with data := fetch v.data } := by
  unfold fetch
  split
  case isTrue => exact hv
  case isFalse hne =>
  obtain ⟨l, A, V, hf⟩ := hv.flow
  cases A with
  | nil => exact absurd ((hf.avail.empty_iff num_lt).mpr rfl) hne
  | cons h A =>
    have hhead : v.data.availRing (cellOf num v.data.seen) = h := hf.avail.head
    rw [hhead]
    have hperm : (A ++ (v.data.taken ++ [h]) ++ V).Perm (h :: A ++ v.data.taken ++ V) := by
      rw [← List.append_assoc, List.append_assoc _ [h] V, List.singleton_append]
      exact List.perm_middle
    refine ⟨hv.places.device rfl rfl fun {p k} _ hk => ?_, ⟨l, A, V, hf.avail.pop, hf.used, hf.late,
      ?_, fun i => ?_, hf.status, hf.completed, ?_⟩, hv.panic⟩
    · cases k <;> exact hk
    · exact (hperm.append_left l).nodup_iff.mpr hf.nodup
    · exact (hperm.mem_iff).trans ((hf.who i).trans (waiting_data rfl i).symm)
    · rw [hf.posted, List.append_assoc]
      rfl

theorem complete_inv (hv : Inv v) (j : Nat) : Inv { v with data := complete j v.data } := by
  unfold complete
  split
  case h_1 => exact hv
  case h_2 h hj =>
  obtain ⟨l, A, V, hf⟩ := hv.flow
  have hmem : h ∈ v.data.taken := List.mem_of_getElem? hj
  have hlive : h ∈ A ++ v.data.taken ++ V := List.mem_append_left _ (List.mem_append_right _ hmem)
  obtain ⟨p, q, x, hp, rfl, hflag, hlt⟩ := hv.places.waiting ((hf.who h).mp hlive)
  obtain ⟨⟨⟨_, hnext, _, hnext', _⟩, haddr⟩, _⟩ : Knows v.data (.wait q x) := hv.places.knows hp
  have hstatus : writeStatus x.i0 v.data = { v.data with
      info := update v.data.info x.i0 { v.data.info x.i0 with status := 0 } } := by
    unfold writeStatus
    rw [hnext, hnext', haddr]
  rw [hstatus]
  have hb : ∀ i, (update v.data.info x.i0 { v.data.info x.i0 with status := 0 } i).b =
      (v.data.info i).b := by
    intro i
    by_cases hi : i = x.i0
    · subst hi
      rw [update_self]
    · rw [update_of_ne hi]
  have hlen : v.data.taken.length = (v.data.taken.eraseIdx j).length + 1 := by
    have hjlt := (List.getElem?_eq_some_iff.mp hj).1
    rw [List.length_eraseIdx_of_lt hjlt]
    omega
  have hroom := hf.length_le hv.places
  have htaken : (x.i0 :: v.data.taken.eraseIdx j).Perm v.data.taken := by
    obtain ⟨hjlt, hget⟩ := List.getElem?_eq_some_iff.mp hj
    rw [← hget]
    exact List.getElem_cons_eraseIdx_perm hjlt
  have hperm : (A ++ v.data.taken.eraseIdx j ++ (V ++ [x.i0])).Perm (A ++ v.data.taken ++ V) := by
    have hswap : (A ++ v.data.taken.eraseIdx j ++ (V ++ [x.i0])).Perm
        (A ++ (x.i0 :: v.data.taken.eraseIdx j) ++ V) := by
      rw [← List.append_assoc]
      refine (List.perm_append_singleton ..).trans ?_
      simp only [List.append_assoc]
      exact List.perm_middle.symm
    exact hswap.trans ((htaken.append_left A).append_right V)
  refine ⟨hv.places.device rfl rfl fun {p k} _ hk => ?_, ⟨l, A, V ++ [x.i0], hf.avail, ?_, hf.late,
    ?_, fun i => ?_, fun i hi => ?_, ?_, hf.posted⟩, hv.panic⟩
  · cases k with
    | post q' x' =>
      refine ⟨hk.1, ?_, hk.2.2⟩
      rw [hb]
      exact hk.2.1
    | bump q' x' =>
      refine ⟨⟨hk.1.1, ?_, hk.1.2.2⟩, hk.2⟩
      rw [hb]
      exact hk.1.2.1
    | wait q' x' => exact knows_wait hk (fun _ _ => rfl) (hb _) rfl rfl id
    | _ => exact hk
  · have hpush := hf.used.push (a := x.i0) num_dvd (by rw [List.length_append]; omega)
    rw [List.append_assoc] at hpush
    exact hpush
  · exact (hperm.append_left l).nodup_iff.mpr hf.nodup
  · exact (hperm.mem_iff).trans ((hf.who i).trans (waiting_data rfl i).symm)
  · show (update v.data.info x.i0 { v.data.info x.i0 with status := 0 } i).status = 0
    by_cases hix : i = x.i0
    · subst hix
      rw [update_self]
    · rw [update_of_ne hix]
      rcases List.mem_append.mp hi with hV | hlast
      · exact hf.status i hV
      · exact absurd (List.mem_singleton.mp hlast) hix
  · rw [hf.completed, List.map_append, List.append_assoc]
    rfl

/-! ## §4 Runs -/

/-- A call begins. Its buffer is locked by the caller, so nobody else uses it. -/
theorem Inv.enter (hv : Inv v) (hout : v.cont p = none) {ids : Nat} {busy : B → Bool}
    (hheld : k.held = []) (hinner : k.inner = false) (hno : ∀ d h, ¬ Counts d h k)
    (hscan : k ≠ .scanned) (hknows : ∀ d, Knows d k)
    (hbusy : ∀ b, v.data.busy b = true → busy b = true)
    (hreq : ∀ q, k.req = some q → v.data.busy q.b = false ∧ busy q.b = true) :
    Inv { v with
      data := { v.data with ids := ids, busy := busy }, cont := update v.cont p (some k) } := by
  have hp := hv.places
  have hothers : ∀ {p' k'}, v.cont p' = some k' → update v.cont p (some k) p' = some k' := by
    intro p' k' hp'
    have hne : p' ≠ p := by
      rintro rfl
      rw [hout] at hp'
      cases hp'
    exact (update_of_ne hne ..).trans hp'
  have hold : ∀ {p' k' i}, update v.cont p (some k) p' = some k' → i ∈ k'.held →
      v.cont p' = some k' := by
    intro p' k' i hp' hi
    rcases cont_update hp' with ⟨_, ⟨⟩⟩ | ⟨_, hold⟩
    · rw [hheld] at hi
      cases hi
    · exact hold
  refine ⟨⟨fun hp' hin => ?_, fun hp' hi => ?_, fun hp' => ?_, fun hp' hp'' hi hi' => ?_,
    fun i hi => ?_, fun {p' k' q} hp' hq => ?_, fun {p' p'' k' k'' q q'} hp' hp'' hq hq' hb => ?_,
    fun {p' k'} hp' => ?_⟩, ?_, hv.panic⟩
  · rcases cont_update hp' with ⟨_, ⟨⟩⟩ | ⟨_, hold⟩
    · rw [hinner] at hin
      cases hin
    · exact hp.inner hold hin
  · exact hp.range (hold hp' hi) hi
  · rcases cont_update hp' with ⟨_, ⟨⟩⟩ | ⟨_, hold⟩
    · rw [hheld]
      exact List.nodup_nil
    · exact hp.nodup hold
  · exact hp.apart (hold hp' hi) (hold hp'' hi') hi hi'
  · refine (hp.marks i hi).trans ⟨?_, ?_⟩
    · rintro ⟨p', k', hp', hi'⟩
      exact ⟨p', k', hothers hp', hi'⟩
    · rintro ⟨p', k', hp', hi'⟩
      exact ⟨p', k', hold hp' hi', hi'⟩
  · rcases cont_update hp' with ⟨_, ⟨⟩⟩ | ⟨_, hold⟩
    · exact (hreq q hq).2
    · exact hbusy _ (hp.busy hold hq)
  · -- a buffer in use is busy, and the new one was not
    have hfresh : ∀ {p1 k1 q1 q2}, v.cont p1 = some k1 → k1.req = some q1 → k.req = some q2 →
        q1.b ≠ q2.b := by
      intro p1 k1 q1 q2 h1 hq1 hq2 he
      have hold := hp.busy h1 hq1
      rw [he, (hreq q2 hq2).1] at hold
      cases hold
    rcases cont_update hp' with ⟨h1, hc⟩ | ⟨_, hold⟩
    · rcases cont_update hp'' with ⟨h2, _⟩ | ⟨_, hold'⟩
      · rw [h1, h2]
      · cases hc
        exact absurd hb.symm (hfresh hold' hq' hq)
    · rcases cont_update hp'' with ⟨_, ⟨⟩⟩ | ⟨_, hold'⟩
      · exact absurd hb (hfresh hold hq hq')
      · exact hp.bufs hold hold' hq hq' hb
  · rcases cont_update hp' with ⟨_, ⟨⟩⟩ | ⟨_, hold⟩
    · exact hknows _
    · have hkn := hp.knows hold
      cases k' <;> exact hkn
  · obtain ⟨l, A, V, hf⟩ := hv.flow
    refine ⟨l, A, V, hf.congr rfl (fun p' => ⟨fun hp' => ?_, hothers⟩) (fun h => ⟨?_, ?_⟩)
      fun _ _ => ⟨rfl, rfl⟩⟩
    · rcases cont_update hp' with ⟨_, hc⟩ | ⟨_, hold⟩
      · exact absurd (Option.some.inj hc) hscan
      · exact hold
    · rintro ⟨p', k', hp', hc⟩
      rcases cont_update hp' with ⟨_, ⟨⟩⟩ | ⟨_, hold⟩
      · exact absurd hc (hno _ h)
      · exact ⟨p', k', hold, by cases k' <;> exact hc⟩
    · rintro ⟨p', k', hp', hc⟩
      exact ⟨p', k', hothers hp', by cases k' <;> exact hc⟩

theorem start_inv [DecidableEq B] (hv : Inv v) (hout : v.cont p = none)
    (hd : start k v.data = some d) :
    Inv { v with data := d, cont := update v.cont p (some k) } := by
  unfold start at hd
  split at hd
  case h_1 q =>
    split at hd
    case isFalse => cases hd
    case isTrue hfresh =>
      cases hd
      refine hv.enter hout rfl rfl (fun _ _ => id) (by rintro ⟨⟩) (fun _ => trivial)
        (fun b hb => ?_) ?_
      · by_cases hbq : b = q.b
        · rw [hbq, update_self]
        · rw [update_of_ne hbq]
          exact hb
      · rintro q' ⟨⟩
        exact ⟨hfresh.2, update_self ..⟩
  case h_2 =>
    cases hd
    exact hv.enter hout rfl rfl (fun _ _ => id) (by rintro ⟨⟩) (fun _ => trivial) (fun _ => id)
      (by rintro _ ⟨⟩)
  case h_3 => cases hd

theorem body_inv [DecidableEq B] (hv : Inv v) (hl : v.lock = some p) (hk : v.cont p = some k) :
    Inv (v.after p (body k v.data)) := by
  unfold body
  rw [if_pos hv.panic]
  cases k with
  | alloc q => exact alloc_inv hv hl hk
  | undo q left => exact undo_inv hv hl hk
  | fill q x => exact fill_inv hv hl hk
  | post q x => exact post_inv hv hl hk
  | bump q x => exact bump_inv hv hl hk
  | wait q x => exact wait_inv hv hl hk
  | finish q x => exact finish_inv hv hl hk
  | chain q i rest => exact chain_inv hv hl hk
  | done q => exact done_inv hv hl hk
  | intr => exact intr_inv hv hl hk
  | scan => exact scan_inv hv hl hk
  | scanned => exact scanned_inv hv hl hk

theorem turn_inv [DecidableEq B] {v' : Monitor.View n (Disk B) (Place B)} (hv : Inv v)
    (ht : virtio.Turn v v') : Inv v' := by
  cases ht with
  | start out can => exact start_inv hv out can
  | acquire free here =>
    have hp := hv.places
    obtain ⟨l, A, V, hf⟩ := hv.flow
    refine ⟨⟨fun hk hin => ?_, hp.range, hp.nodup, hp.apart, hp.marks, hp.busy, hp.bufs, hp.knows⟩,
      ⟨l, A, V, hf.avail, hf.used, hf.late, hf.nodup, hf.who, hf.status, hf.completed, hf.posted⟩,
      hv.panic⟩
    have hlock := hp.inner hk hin
    rw [free] at hlock
    cases hlock
  | body killed holds here => exact body_inv hv holds here
  | env e =>
    cases e with
    | fetch => exact fetch_inv hv
    | complete j => exact complete_inv hv j

theorem boot_inv : Inv (boot n B).view := by
  have hout : ∀ {p : Fin n} {k}, (boot n B).view.cont p ≠ some k := fun h => by cases h
  refine ⟨⟨fun h => absurd h hout, fun h => absurd h hout, fun h => absurd h hout,
    fun h => absurd h hout, fun i _ => ⟨fun h => (by cases h), ?_⟩, fun h => absurd h hout,
    fun h => absurd h hout, fun h => absurd h hout⟩,
    ⟨[], [], [], ring_nil .., ring_nil .., .inl ⟨rfl, fun _ => hout⟩, List.nodup_nil,
      fun h => ⟨fun hm => (by cases hm), ?_⟩, fun h hm => (by cases hm), rfl, rfl⟩, rfl⟩
  · rintro ⟨p, k, hk, _⟩
    exact absurd hk hout
  · rintro ⟨p, k, hk, _⟩
    exact absurd hk hout

end Xv6.Virtio

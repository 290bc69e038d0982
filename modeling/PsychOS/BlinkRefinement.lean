/-
The calls on the linked list of blinks act as on the plain list.  A walk ends
only because the list does, so that every call has to keep it a list; what
breaks this is a blink at location zero, whose entry still counts as free.
-/
import PsychOS.BlinkList

namespace PsychOS

section Refinement

variable {st : BlinkState} {slots : List Nat} {display : Display} {fuel : Nat}

@[simp]
theorem setBlink_self (st : BlinkState) (i : Nat) (b : Blink) :
    (st.setBlink i b).blinkArray i = b :=
  Function.update_self ..

theorem setBlink_of_ne (st : BlinkState) {i j : Nat} (b : Blink)
    (hne : j ≠ i) : (st.setBlink i b).blinkArray j = st.blinkArray j :=
  Function.update_of_ne hne ..

namespace KeepsBlinks

theorem length_le (hkeeps : KeepsBlinks st slots display) :
    slots.length ≤ blinkArraySize := by
  apply Linked.length_le hkeeps.holds
  intro i hi
  exact ((hkeeps.allocated i).mp hi).1

theorem length_eq (hkeeps : KeepsBlinks st slots display) :
    display.blinks.length = slots.length := by
  rw [hkeeps.blinks_eq, List.length_map]

end KeepsBlinks

theorem start_keeps (vmem : Memory UInt8) :
    KeepsBlinks (BlinkState.start vmem) [] ⟨[], vmem⟩ where
  holds := Linked.nil
  allocated i := by simp [BlinkState.start, BlinkState.data, Blink.zeroed]
  blinks_eq := rfl
  vmem_eq := rfl

/-- The search visits the entries of the list in order. -/
theorem findHelperLoop_eq {head : Option Nat} (location : BitVec 16)
    (hlinked : Linked st.links.next head slots)
    (hfuel : slots.length < fuel) :
    findHelperLoop st location fuel head =
      some (slots.find? (BlinkData.isAt location ∘ st.data)) := by
  induction hlinked generalizing fuel with
  | nil =>
      cases fuel with
      | zero => exact absurd hfuel (Nat.not_lt_zero _)
      | succ fuel => rfl
  | @cons i rest _ ih =>
      cases fuel with
      | zero => exact absurd hfuel (Nat.not_lt_zero _)
      | succ fuel =>
          have hrest := ih (Nat.lt_of_succ_lt_succ hfuel)
          by_cases hat : (st.data i).location = location
          · simp [findHelperLoop, hat, BlinkData.isAt]
          · rw [findHelperLoop, if_neg hat, List.find?_cons_of_neg]
            · exact hrest
            · simpa [BlinkData.isAt] using hat

theorem mp1FindHelper_eq (hkeeps : KeepsBlinks st slots display)
    (hfuel : blinkArraySize < fuel) (arg : BitVec 32) :
    mp1FindHelper fuel st arg =
      some (slots.find? (BlinkData.isAt (arg.setWidth 16) ∘ st.data)) :=
  findHelperLoop_eq _ hkeeps.holds
    (Nat.lt_of_le_of_lt hkeeps.length_le hfuel)

theorem at?_eq (hkeeps : KeepsBlinks st slots display)
    (location : BitVec 16) :
    display.at? location =
      (slots.find? (BlinkData.isAt location ∘ st.data)).map st.data := by
  rw [Display.at?, hkeeps.blinks_eq, List.find?_map]

/-- Where a search of the list ends: what is before it is elsewhere. -/
theorem find?_split {location : BitVec 16} {i : Nat}
    (hfind : slots.find? (BlinkData.isAt location ∘ st.data) = some i) :
    (st.data i).isAt location ∧ ∃ front back, slots = front ++ i :: back ∧
      ∀ b ∈ front.map st.data, ¬ b.isAt location := by
  obtain ⟨hat, front, back, hslots, hfront⟩ :=
    List.find?_eq_some_iff_append.mp hfind
  refine ⟨hat, front, back, hslots, ?_⟩
  intro b hb
  obtain ⟨j, hj, rfl⟩ := List.mem_map.mp hb
  simpa using hfront j hj

/-- The array is full when the list has as many blinks as it has entries. -/
theorem mp1Malloc_eq_none_iff (hkeeps : KeepsBlinks st slots display) :
    mp1Malloc st = none ↔ blinkArraySize ≤ display.blinks.length := by
  rw [hkeeps.length_eq, mp1Malloc, List.find?_range_eq_none]
  constructor
  · intro hfull
    have hsub : List.range blinkArraySize ⊆ slots := by
      intro i hi
      have hlt := List.mem_range.mp hi
      exact (hkeeps.allocated i).mpr ⟨hlt, by simpa using hfull i hlt⟩
    simpa using (List.subperm_of_subset List.nodup_range hsub).length_le
  · intro hfull i hlt
    have hmem : i ∈ slots := by
      by_contra hout
      have hsub : i :: slots ⊆ List.range blinkArraySize := by
        intro j hj
        rcases List.mem_cons.mp hj with rfl | hj
        · exact List.mem_range.mpr hlt
        · exact List.mem_range.mpr ((hkeeps.allocated j).mp hj).1
      have hnodup : (i :: slots).Nodup :=
        List.nodup_cons.mpr ⟨hout, Linked.nodup hkeeps.holds⟩
      have hlength := (List.subperm_of_subset hnodup hsub).length_le
      simp only [List.length_cons, List.length_range] at hlength
      omega
    simpa using ((hkeeps.allocated i).mp hmem).2

theorem mp1Malloc_some {i : Nat} (hkeeps : KeepsBlinks st slots display)
    (hmalloc : mp1Malloc st = some i) : i < blinkArraySize ∧ i ∉ slots := by
  obtain ⟨hfree, hlt, -⟩ := List.find?_range_eq_some.mp hmalloc
  refine ⟨List.mem_range.mp hlt, ?_⟩
  intro hmem
  exact ((hkeeps.allocated i).mp hmem).2 (by simpa using hfree)

/-- Entries outside the list do not matter to it. -/
theorem map_data_setBlink {i : Nat} {b : Blink} (hout : i ∉ slots) :
    slots.map (st.setBlink i b).data = slots.map st.data := by
  apply List.map_congr_left
  intro j hj
  have hne : j ≠ i := by
    rintro rfl
    exact hout hj
  rw [BlinkState.data, setBlink_of_ne _ _ hne]

theorem KeepsBlinks.poke (hkeeps : KeepsBlinks st slots display)
    (offset : Nat) (byte : UInt8) :
    KeepsBlinks (mp1Poke st offset byte) slots
      { display with vmem := display.vmem.store offset byte } where
  holds := hkeeps.holds
  allocated := hkeeps.allocated
  blinks_eq := hkeeps.blinks_eq
  vmem_eq := congrArg (Memory.store · offset byte) hkeeps.vmem_eq

/-- A blink written to a free entry and linked in front. -/
theorem KeepsBlinks.push {i : Nat} {b : Blink}
    (hkeeps : KeepsBlinks st slots display) (hlt : i < blinkArraySize)
    (hout : i ∉ slots) (hne : b.location ≠ 0)
    (hnext : b.next = st.listHead) :
    KeepsBlinks { st.setBlink i b with listHead := some i } (i :: slots)
      { display with blinks := b.toBlinkData :: display.blinks } where
  holds := by
    convert hkeeps.holds.push hout using 1
    simp only [BlinkState.links, Links.set, BlinkState.setBlink]
    congr 1
    funext j
    by_cases hj : j = i
    · simp [hj, hnext]
    · simp [hj]
  allocated j := by
    by_cases hj : j = i
    · subst hj
      refine iff_of_true List.mem_cons_self ⟨hlt, ?_⟩
      rw [BlinkState.data, setBlink_self]
      exact hne
    · rw [List.mem_cons, or_iff_right hj, hkeeps.allocated]
      simp only [BlinkState.data, setBlink_of_ne _ _ hj]
  blinks_eq := by
    simp only [List.map_cons, BlinkState.data, setBlink_self]
    rw [hkeeps.blinks_eq, ← map_data_setBlink hout]
  vmem_eq := hkeeps.vmem_eq

/-- The state after `b` has been put in front, in entry `i`. -/
def BlinkState.added (st : BlinkState) (i : Nat) (b : BlinkData) : BlinkState :=
  mp1Poke { st.setBlink i ⟨b.fresh, st.listHead⟩ with listHead := some i }
    b.cell b.onChar

theorem mp1IoctlAdd_eq {arg : Blink} {i : Nat}
    (hsmall : arg.location.toNat < blinkArraySize)
    (hmalloc : mp1Malloc st = some i) :
    mp1IoctlAdd st arg = (st.added i arg.toBlinkData, 0) := by
  rw [mp1IoctlAdd, if_neg (Nat.not_le.mpr hsmall)]
  simp only [hmalloc]
  rfl

theorem mp1IoctlAdd_fail {arg : Blink}
    (hfail : blinkArraySize ≤ arg.location.toNat ∨ mp1Malloc st = none) :
    mp1IoctlAdd st arg = (st, -1) := by
  rw [mp1IoctlAdd]
  split
  · rfl
  · next hsmall =>
      rw [hfail.resolve_left hsmall]

theorem mp1IoctlAdd_keeps {arg : Blink}
    (hkeeps : KeepsBlinks st slots display) (hne : arg.location ≠ 0) :
    (mp1IoctlAdd st arg).2 = (display.add arg.toBlinkData).2 ∧
      ∃ slots', KeepsBlinks (mp1IoctlAdd st arg).1 slots'
        (display.add arg.toBlinkData).1 := by
  rw [Display.add]
  split
  · next hfail =>
      rw [← mp1Malloc_eq_none_iff hkeeps] at hfail
      rw [mp1IoctlAdd_fail hfail]
      exact ⟨rfl, slots, hkeeps⟩
  · next hroom =>
      obtain ⟨hsmall, hfree⟩ := not_or.mp hroom
      rw [← mp1Malloc_eq_none_iff hkeeps] at hfree
      obtain ⟨i, hmalloc⟩ := Option.ne_none_iff_exists'.mp hfree
      obtain ⟨hlt, hout⟩ := mp1Malloc_some hkeeps hmalloc
      rw [mp1IoctlAdd_eq (Nat.not_le.mp hsmall) hmalloc]
      have hpush : KeepsBlinks _ (i :: slots) _ :=
        @KeepsBlinks.push st slots display i ⟨arg.fresh, st.listHead⟩
          hkeeps hlt hout hne rfl
      exact ⟨rfl, i :: slots, hpush.poke arg.cell arg.onChar⟩

theorem KeepsBlinks.once {front back : List Nat} {i : Nat}
    (hkeeps : KeepsBlinks st (front ++ i :: back) display) :
    i ∉ front ++ back :=
  (List.nodup_cons.mp (List.nodup_middle.mp (Linked.nodup hkeeps.holds))).1

/-- A blink of the list overwritten by one at the same place, linked as it
was. -/
theorem KeepsBlinks.overwrite {front back : List Nat} {i : Nat} {b : Blink}
    (hkeeps : KeepsBlinks st (front ++ i :: back) display)
    (hlocation : b.location = (st.data i).location)
    (hnext : b.next = (st.blinkArray i).next) :
    KeepsBlinks (st.setBlink i b) (front ++ i :: back)
      { display with
        blinks := front.map st.data ++ b.toBlinkData :: back.map st.data }
    where
  holds := by
    apply Linked.congr hkeeps.holds
    intro j _
    by_cases hj : j = i
    · simp [hj, BlinkState.links, hnext]
    · simp [BlinkState.links, setBlink_of_ne _ _ hj]
  allocated j := by
    rw [hkeeps.allocated]
    by_cases hj : j = i
    · simp [hj, BlinkState.data, hlocation]
    · simp only [BlinkState.data, setBlink_of_ne _ _ hj]
  blinks_eq := by
    obtain ⟨hfront, hback⟩ := not_or.mp (mt List.mem_append.mpr hkeeps.once)
    rw [List.map_append, List.map_cons, map_data_setBlink hfront,
      map_data_setBlink hback, BlinkState.data, setBlink_self]
  vmem_eq := hkeeps.vmem_eq

/-- The walk of `remove_find_prev` stops at the link before the entry. -/
theorem removeFindPrev_eq {front back : List Nat} {i : Nat} {link : Option Nat}
    (hlinked : Linked st.links.next (st.links.get link) (front ++ i :: back))
    (hfuel : front.length < fuel) :
    removeFindPrev st i fuel link = some (front.getLast?.or link) := by
  induction front generalizing link fuel with
  | nil =>
      cases fuel with
      | zero => exact absurd hfuel (Nat.not_lt_zero _)
      | succ fuel =>
          have hhere : st.links.get link = some i := hlinked.head_eq
          rw [removeFindPrev, if_pos hhere]
          rfl
  | cons entry front ih =>
      cases fuel with
      | zero => exact absurd hfuel (Nat.not_lt_zero _)
      | succ fuel =>
          have hentry : st.links.get link = some entry := hlinked.head_eq
          have hne : entry ≠ i := by
            rintro rfl
            exact (List.nodup_cons.mp hlinked.nodup).1
              (List.mem_append_right front List.mem_cons_self)
          rw [hentry] at hlinked
          cases hlinked with
          | cons htail =>
              have hrest := @ih fuel (some entry) htail
                (Nat.lt_of_succ_lt_succ hfuel)
              rw [removeFindPrev, hentry, if_neg (by simpa using hne)]
              dsimp only
              rw [hrest, List.getLast?_cons]
              cases front.getLast? with
              | none => rfl
              | some last => rfl

theorem links_setLink (st : BlinkState) (value link : Option Nat) :
    (st.setLink value link).links = st.links.set value link := by
  cases link with
  | none => rfl
  | some i =>
      simp only [BlinkState.setLink, BlinkState.links, Links.set,
        BlinkState.setBlink]
      congr 1
      funext j
      by_cases hj : j = i
      · simp [hj]
      · simp [hj]

@[simp]
theorem data_setLink (st : BlinkState) (value link : Option Nat) :
    (st.setLink value link).data = st.data := by
  cases link with
  | none => rfl
  | some i =>
      funext j
      by_cases hj : j = i
      · simp [hj, BlinkState.setLink, BlinkState.data]
      · simp [BlinkState.setLink, BlinkState.data, setBlink_of_ne _ _ hj]

@[simp]
theorem vmem_setLink (st : BlinkState) (value link : Option Nat) :
    (st.setLink value link).vmem = st.vmem := by
  cases link <;> rfl

/-- An entry taken out of the list and cleared. -/
theorem KeepsBlinks.unlink {front back : List Nat} {i : Nat}
    (hkeeps : KeepsBlinks st (front ++ i :: back) display) :
    KeepsBlinks
      (mp1Free (st.setLink (st.blinkArray i).next front.getLast?) i)
      (front ++ back)
      { display with blinks := (front ++ back).map st.data } where
  holds := by
    have hunlinked : Links.Holds
        (st.setLink (st.blinkArray i).next front.getLast?).links
        (front ++ back) := by
      rw [links_setLink]
      exact hkeeps.holds.unlink
    apply Linked.congr hunlinked
    intro j hj
    have hne : j ≠ i := by
      rintro rfl
      exact hkeeps.once hj
    simp only [BlinkState.links, mp1Free, setBlink_of_ne _ _ hne]
  allocated j := by
    by_cases hj : j = i
    · subst hj
      apply iff_of_false hkeeps.once
      simp [mp1Free, BlinkState.data, Blink.zeroed]
    · have hmem : j ∈ front ++ back ↔ j ∈ front ++ i :: back := by
        simp [hj]
      have hdata := congrFun
        (data_setLink st (st.blinkArray i).next front.getLast?) j
      rw [hmem, hkeeps.allocated, ← hdata]
      simp only [BlinkState.data, mp1Free, setBlink_of_ne _ _ hj]
  blinks_eq := by
    rw [mp1Free, map_data_setBlink hkeeps.once, data_setLink]
  vmem_eq := by
    rw [hkeeps.vmem_eq]
    exact (vmem_setLink st _ _).symm

theorem mp1IoctlRemove_keeps (hkeeps : KeepsBlinks st slots display)
    (hfuel : blinkArraySize < fuel) (arg : BitVec 32) :
    ∃ next slots', mp1IoctlRemove fuel st arg =
        some (next, (display.remove (arg.setWidth 16)).2) ∧
      KeepsBlinks next slots' (display.remove (arg.setWidth 16)).1 := by
  rw [mp1IoctlRemove, mp1FindHelper_eq hkeeps hfuel, Display.remove,
    at?_eq hkeeps]
  cases hfind : slots.find?
      (BlinkData.isAt (arg.setWidth 16) ∘ st.data) with
  | none => exact ⟨st, slots, rfl, hkeeps⟩
  | some i =>
      obtain ⟨hat, front, back, rfl, hfront⟩ := find?_split hfind
      have hlength : front.length < fuel := by
        have hle := hkeeps.length_le
        simp only [List.length_append, List.length_cons] at hle
        omega
      have hprev : removeFindPrev st i fuel none = some front.getLast? := by
        have hlinked : Linked st.links.next (st.links.get none) _ :=
          hkeeps.holds
        rw [removeFindPrev_eq hlinked hlength, Option.or_none]
      have herase : display.blinks.eraseP
          (BlinkData.isAt (arg.setWidth 16)) =
          (front ++ back).map st.data := by
        rw [hkeeps.blinks_eq, List.map_append, List.map_cons,
          List.eraseP_append_right _ hfront, List.eraseP_cons_of_pos hat,
          List.map_append]
      refine ⟨mp1Free (st.setLink (st.blinkArray i).next front.getLast?) i,
        front ++ back, ?_, ?_⟩
      · simp only [Option.bind_eq_bind, Option.bind_some, hprev]
        rfl
      · simp only [Option.map_some, herase]
        exact hkeeps.unlink

theorem syncDisplayed_eq (b : BlinkData) : syncDisplayed b = b.offChar := by
  simp [syncDisplayed, BitVec.msb_and]

theorem mp1IoctlSync_keeps (hkeeps : KeepsBlinks st slots display)
    (hfuel : blinkArraySize < fuel) (arg : BitVec 32) :
    ∃ next slots', mp1IoctlSync fuel st arg =
        some (next, (display.sync (arg.extractLsb' 16 16)
          (arg.setWidth 16)).2) ∧
      KeepsBlinks next slots'
        (display.sync (arg.extractLsb' 16 16) (arg.setWidth 16)).1 := by
  have hsource : (arg >>> 16).setWidth 16 = arg.extractLsb' 16 16 := rfl
  have htarget : (arg &&& 0xFFFF).setWidth 16 = arg.setWidth 16 := by
    rw [BitVec.setWidth_and]
    exact BitVec.and_allOnes
  rw [mp1IoctlSync, mp1FindHelper_eq hkeeps hfuel,
    mp1FindHelper_eq hkeeps hfuel, hsource, htarget, Display.sync,
    at?_eq hkeeps, at?_eq hkeeps]
  cases slots.find? (BlinkData.isAt (arg.extractLsb' 16 16) ∘ st.data) with
  | none => exact ⟨st, slots, rfl, hkeeps⟩
  | some source =>
      cases hfind : slots.find?
          (BlinkData.isAt (arg.setWidth 16) ∘ st.data) with
      | none => exact ⟨st, slots, rfl, hkeeps⟩
      | some target =>
          obtain ⟨hat, front, back, rfl, hfront⟩ := find?_split hfind
          have hmodify : modifyFirst (BlinkData.isAt (arg.setWidth 16))
              (st.data source).follow display.blinks =
              front.map st.data ++ (st.data source).follow (st.data target) ::
                back.map st.data := by
            rw [hkeeps.blinks_eq, List.map_append, List.map_cons,
              modifyFirst_append hfront hat]
          have hover := @KeepsBlinks.overwrite st display front back target
            ⟨(st.data source).follow (st.data target),
              (st.blinkArray target).next⟩ hkeeps rfl rfl
          refine ⟨_, front ++ target :: back, rfl, ?_⟩
          simp only [Option.map_some, hmodify, syncDisplayed_eq]
          exact hover.poke _ _

theorem expires_eq_false_iff {b : BlinkData} :
    b.expires = false ↔ 0 < (b.countdown - 1).toInt := by
  rw [BlinkData.expires, decide_eq_false_iff_not, Int.not_le]

/-- What a turn of the tasklet does to the entry, and to the screen. -/
theorem taskletTurn_eq (st : BlinkState) (i : Nat) :
    taskletTurn st i =
      { st.setBlink i ⟨(st.data i).tick, (st.blinkArray i).next⟩ with
        vmem := (st.data i).tickShown st.vmem } := by
  rw [taskletTurn, BlinkData.tick, BlinkData.tickShown]
  dsimp only
  by_cases hleft : 0 < ((st.data i).countdown - 1).toInt
  · rw [if_pos hleft, expires_eq_false_iff.mpr hleft]
    rfl
  · have hexpires : (st.data i).expires = true :=
      (Bool.not_eq_false _).mp (mt expires_eq_false_iff.mp hleft)
    rw [if_neg hleft, if_pos hexpires, if_pos hexpires]
    by_cases hon : (st.data i).status &&& 1 ≠ 0
    · have hisOn : (st.data i).isOn = true := decide_eq_true hon
      rw [if_pos hon, BlinkData.toggle, hisOn]
      rfl
    · have hisOn : (st.data i).isOn = false := decide_eq_false hon
      rw [if_neg hon, BlinkData.toggle, hisOn]
      rfl

theorem links_taskletTurn (st : BlinkState) (i : Nat) :
    (taskletTurn st i).links = st.links := by
  rw [taskletTurn_eq]
  simp only [BlinkState.links, BlinkState.setBlink]
  congr 1
  funext j
  by_cases hj : j = i
  · simp [hj]
  · simp [hj]

theorem data_taskletTurn (st : BlinkState) (i j : Nat) :
    (taskletTurn st i).data j =
      if j = i then (st.data j).tick else st.data j := by
  rw [taskletTurn_eq]
  by_cases hj : j = i
  · simp [hj, BlinkState.data]
  · simp [hj, BlinkState.data, setBlink_of_ne]

/-- A tick visits every blink of the list once. -/
theorem taskletLoop_eq {head : Option Nat}
    (hlinked : Linked st.links.next head slots)
    (hfuel : slots.length < fuel) :
    ∃ next, taskletLoop fuel head st = some next ∧
      next.links = st.links ∧
      (∀ i, next.data i = if i ∈ slots then (st.data i).tick else st.data i) ∧
      next.vmem = (slots.map st.data).foldl BlinkData.tickShown st.vmem := by
  induction slots generalizing st head fuel with
  | nil =>
      cases hlinked
      cases fuel with
      | zero => exact absurd hfuel (Nat.not_lt_zero _)
      | succ fuel => exact ⟨st, rfl, rfl, fun i => by simp, rfl⟩
  | cons i rest ih =>
      have hout := (List.nodup_cons.mp hlinked.nodup).1
      cases hlinked with
      | cons htail =>
      cases fuel with
      | zero => exact absurd hfuel (Nat.not_lt_zero _)
      | succ fuel =>
          have hlinks := links_taskletTurn st i
          have hnext : ((taskletTurn st i).blinkArray i).next =
              st.links.next i := congrArg (fun links => links.next i) hlinks
          have hrest : rest.map (taskletTurn st i).data =
              rest.map st.data := by
            apply List.map_congr_left
            intro j hj
            rw [data_taskletTurn, if_neg]
            rintro rfl
            exact hout hj
          rw [← hlinks] at htail
          obtain ⟨next, hloop, hsame, hdata, hvmem⟩ :=
            ih htail (Nat.lt_of_succ_lt_succ hfuel)
          refine ⟨next, ?_, hsame.trans hlinks, ?_, ?_⟩
          · rw [taskletLoop, hnext, ← hlinks]
            exact hloop
          · intro j
            rw [hdata, data_taskletTurn]
            by_cases hj : j = i
            · subst hj
              simp [hout]
            · simp [hj]
          · rw [hvmem, hrest, taskletTurn_eq]
            rfl

theorem mp1RtcTasklet_keeps (hkeeps : KeepsBlinks st slots display)
    (hfuel : blinkArraySize < fuel) :
    ∃ next, mp1RtcTasklet fuel st = some next ∧
      KeepsBlinks next slots display.tick := by
  obtain ⟨next, hloop, hlinks, hdata, hvmem⟩ :=
    taskletLoop_eq hkeeps.holds (Nat.lt_of_le_of_lt hkeeps.length_le hfuel)
  refine ⟨next, hloop, ?_⟩
  constructor
  · rw [hlinks]
    exact hkeeps.holds
  · intro i
    have hlocation : (next.data i).location = (st.data i).location := by
      rw [hdata]
      split
      · rw [BlinkData.tick]
        split <;> rfl
      · rfl
    rw [hlocation, hkeeps.allocated]
  · rw [Display.tick, hkeeps.blinks_eq, List.map_map]
    apply List.map_congr_left
    intro i hi
    rw [hdata, if_pos hi]
    rfl
  · rw [hvmem, Display.tick, hkeeps.blinks_eq, hkeeps.vmem_eq]

/-- No blink is added at location zero. -/
def BlinkCall.Legal : BlinkCall → Prop
  | .add arg => arg.location ≠ 0
  | _ => True

instance : DecidablePred BlinkCall.Legal
  | .add arg => inferInstanceAs (Decidable (arg.location ≠ 0))
  | .remove _ | .find _ | .sync _ | .tasklet =>
      inferInstanceAs (Decidable True)

theorem mp1IoctlFind_eq (hkeeps : KeepsBlinks st slots display)
    (hfuel : blinkArraySize < fuel) (arg : Blink) :
    (mp1IoctlFind fuel st arg).map
        (fun (b, result) => (⟨result, some b.toBlinkData⟩ : BlinkReply)) =
      some (display.call (.find arg)).2 := by
  have hlocation : (arg.location.setWidth 32).setWidth 16 = arg.location :=
    BitVec.setWidth_setWidth_of_le _ (by decide)
  rw [mp1IoctlFind, mp1FindHelper_eq hkeeps hfuel, hlocation, Display.call,
    at?_eq hkeeps]
  cases slots.find? (BlinkData.isAt arg.location ∘ st.data) with
  | none => rfl
  | some i => rfl

/-- A call answers what it answers on the plain list, and its loops end. -/
theorem blinkStep_keeps {call : BlinkCall}
    (hkeeps : ∃ slots, KeepsBlinks st slots display)
    (hfuel : blinkArraySize < fuel) (hlegal : call.Legal) :
    ∃ next, blinkStep fuel st call = some (next, (display.call call).2) ∧
      ∃ slots, KeepsBlinks next slots (display.call call).1 := by
  obtain ⟨slots, hkeeps⟩ := hkeeps
  cases call with
  | add arg =>
      obtain ⟨hresult, hadd⟩ := mp1IoctlAdd_keeps hkeeps hlegal
      refine ⟨(mp1IoctlAdd st arg).1, ?_, hadd⟩
      rw [blinkStep, Display.call]
      dsimp only
      rw [hresult]
  | remove arg =>
      obtain ⟨next, slots', hremove, hkeeps'⟩ :=
        mp1IoctlRemove_keeps hkeeps hfuel arg
      refine ⟨next, ?_, slots', hkeeps'⟩
      rw [blinkStep, hremove]
      rfl
  | find arg =>
      have hfind := mp1IoctlFind_eq hkeeps hfuel arg
      obtain ⟨⟨b, result⟩, hsome, hreply⟩ := Option.map_eq_some_iff.mp hfind
      have hsame : (display.call (.find arg)).1 = display := by
        rw [Display.call]
        split <;> rfl
      refine ⟨st, ?_, slots, hsame.symm ▸ hkeeps⟩
      rw [blinkStep, hsome, ← hreply]
      rfl
  | sync arg =>
      obtain ⟨next, slots', hsync, hkeeps'⟩ :=
        mp1IoctlSync_keeps hkeeps hfuel arg
      refine ⟨next, ?_, slots', hkeeps'⟩
      rw [blinkStep, hsync]
      rfl
  | tasklet =>
      obtain ⟨next, htasklet, hkeeps'⟩ := mp1RtcTasklet_keeps hkeeps hfuel
      refine ⟨next, ?_, slots, hkeeps'⟩
      rw [blinkStep, htasklet]
      rfl

/-- Along every run the calls act on the plain list. -/
theorem answers_keeps (vmem : Memory UInt8) (hfuel : blinkArraySize < fuel)
    {calls : List BlinkCall} (hlegal : ∀ call ∈ calls, call.Legal) :
    ∃ st display replies slots,
      answers (blinkStep fuel) (BlinkState.start vmem) calls =
        some (st, replies) ∧
      answers Display.step ⟨[], vmem⟩ calls = some (display, replies) ∧
      KeepsBlinks st slots display := by
  have hstep : ∀ st display call display' reply,
      (∃ slots, KeepsBlinks st slots display) → call.Legal →
      Display.step display call = some (display', reply) →
      ∃ next, blinkStep fuel st call = some (next, reply) ∧
        ∃ slots, KeepsBlinks next slots display' := by
    intro st display call display' reply hkeeps hcall hstep
    obtain ⟨rfl, rfl⟩ := Prod.mk.inj (Option.some.inj hstep)
    exact blinkStep_keeps hkeeps hfuel hcall
  obtain ⟨display, replies, hspec⟩ :=
    exists_answers (fun display call => ⟨_, _, rfl⟩)
      (⟨[], vmem⟩ : Display) calls
  have hstart : ∃ slots, KeepsBlinks (BlinkState.start vmem) slots ⟨[], vmem⟩ :=
    ⟨[], start_keeps vmem⟩
  obtain ⟨st, hrun, slots, hkeeps⟩ :=
    answers_simulation hstep hstart hlegal hspec
  exact ⟨st, display, replies, slots, hrun, hspec, hkeeps⟩

/-- In every run without a blink at location zero the calls end and answer as
they do on a plain list of blinks.  The list in the array has these blinks in
their order, each in an entry of its own, and no other entry is in use. -/
theorem blink_calls_act_on_list (vmem : Memory UInt8)
    (hfuel : blinkArraySize < fuel) {calls : List BlinkCall}
    (hlegal : ∀ call ∈ calls, call.Legal) :
    ∃ st display replies slots,
      answers (blinkStep fuel) (BlinkState.start vmem) calls =
        some (st, replies) ∧
      answers Display.step ⟨[], vmem⟩ calls = some (display, replies) ∧
      KeepsBlinks st slots display ∧ slots.Nodup := by
  obtain ⟨st, display, replies, slots, hrun, hspec, hkeeps⟩ :=
    answers_keeps vmem hfuel hlegal
  exact ⟨st, display, replies, slots, hrun, hspec, hkeeps,
    Linked.nodup hkeeps.holds⟩

def sampleBlink (location : BitVec 16) : Blink :=
  ⟨⟨location, 73, 77, 7, 6, 0, 0⟩, none⟩

def sampleBlinkCalls : List BlinkCall :=
  [.add (sampleBlink 40), .add (sampleBlink 540), .tasklet,
    .sync (0x28#16 ++ 0x21C#16), .find (sampleBlink 540), .remove 40,
    .remove 40]

theorem blink_calls_act_on_list_sample :
    ∃ st display replies slots,
      answers (blinkStep 2001) (BlinkState.start fun _ => 0)
          sampleBlinkCalls = some (st, replies) ∧
      answers Display.step ⟨[], fun _ => 0⟩ sampleBlinkCalls =
        some (display, replies) ∧
      KeepsBlinks st slots display ∧ slots.Nodup :=
  blink_calls_act_on_list (fun _ => 0) (by decide) (by decide)

end Refinement

section LocationZero

variable {st : BlinkState} {fuel : Nat}

/-- An entry that is its own successor keeps the tasklet forever. -/
theorem taskletLoop_self {i : Nat} (hself : st.links.next i = some i) :
    taskletLoop fuel (some i) st = none := by
  induction fuel generalizing st with
  | zero => rfl
  | succ fuel ih =>
      have hnext : (taskletTurn st i).links.next i = some i := by
        rw [links_taskletTurn, hself]
      rw [taskletLoop]
      rw [show ((taskletTurn st i).blinkArray i).next = some i from hnext]
      exact ih hnext

theorem findHelperLoop_self {i : Nat} {location : BitVec 16}
    (hself : st.links.next i = some i)
    (hne : (st.blinkArray i).location ≠ location) :
    findHelperLoop st location fuel (some i) = none := by
  induction fuel with
  | zero => rfl
  | succ fuel ih =>
      rw [findHelperLoop, if_neg hne]
      rw [show (st.blinkArray i).next = some i from hself]
      exact ih

/-- Adding at location zero does not take the entry. -/
theorem mp1Malloc_added {i : Nat} {b : BlinkData}
    (hmalloc : mp1Malloc st = some i) (hzero : b.location = 0) :
    mp1Malloc (st.added i b) = some i := by
  obtain ⟨-, hlt, hearlier⟩ := List.find?_range_eq_some.mp hmalloc
  apply List.find?_range_eq_some.mpr
  refine ⟨?_, hlt, ?_⟩
  · simpa [BlinkState.added, mp1Poke, BlinkData.fresh] using hzero
  · intro j hj
    have hne : j ≠ i := Nat.ne_of_lt hj
    simpa [BlinkState.added, mp1Poke, setBlink_of_ne _ _ hne]
      using hearlier j hj

/-- A blink at location zero leaves its entry free.  The next one overwrites
it and is linked to itself, and in that state neither a tick nor a search for
another location ever ends. -/
theorem blink_at_location_zero_never_ends (hroom : mp1Malloc st ≠ none)
    {first second : Blink} (hzero : first.location = 0)
    (hsecond : second.location.toNat < blinkArraySize) :
    ∃ next, answers (blinkStep fuel) st [.add first, .add second] =
        some (next, [⟨0, none⟩, ⟨0, none⟩]) ∧
      (∀ turns, mp1RtcTasklet turns next = none) ∧
      ∀ turns arg, arg.setWidth 16 ≠ second.location →
        mp1FindHelper turns next arg = none := by
  obtain ⟨i, hmalloc⟩ := Option.ne_none_iff_exists'.mp hroom
  have hfirst : first.location.toNat < blinkArraySize := by
    rw [hzero]
    decide
  have hadd := mp1IoctlAdd_eq hfirst hmalloc
  have hagain := mp1IoctlAdd_eq hsecond
    (mp1Malloc_added hmalloc (b := first.toBlinkData) hzero)
  let next := (st.added i first.toBlinkData).added i second.toBlinkData
  have hself : next.links.next i = some i := by
    simp [next, BlinkState.added, BlinkState.links, mp1Poke]
  refine ⟨next, ?_, ?_, ?_⟩
  · simp [answers, blinkStep, hadd, hagain, next]
  · intro turns
    exact taskletLoop_self hself
  · intro turns arg hne
    apply findHelperLoop_self hself
    have hlocation : (next.blinkArray i).location = second.location := by
      simp [next, BlinkState.added, mp1Poke, BlinkData.fresh]
    rw [hlocation]
    exact Ne.symm hne

theorem blink_at_location_zero_never_ends_sample :
    ∃ next, answers (blinkStep 2001) (BlinkState.start fun _ => 0)
        [.add (sampleBlink 0), .add (sampleBlink 5)] =
        some (next, [⟨0, none⟩, ⟨0, none⟩]) ∧
      (∀ turns, mp1RtcTasklet turns next = none) ∧
      ∀ turns arg, arg.setWidth 16 ≠ (sampleBlink 5).location →
        mp1FindHelper turns next arg = none :=
  blink_at_location_zero_never_ends
    (fun hnone => absurd (List.find?_range_eq_none.mp hnone 0 (by decide))
      (by decide)) rfl (by decide)

end LocationZero

end PsychOS

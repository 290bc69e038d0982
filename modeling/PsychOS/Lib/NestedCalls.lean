/-
Threads of nested calls.  A thread is a chain of frames from its root to the
frame that runs; a frame waits while a frame it called is there.  A run is a
list of labels that say who called whom, and every return in a run belongs to
exactly one earlier call: the last one its thread has not returned from.
-/
import Mathlib.Data.List.Basic
import Mathlib.Logic.Function.Basic
import Mathlib.Tactic.Common

namespace PsychOS

universe u v w

variable {τ : Type u} {α : Type v} {κ : Type w}

/-- A chain of nested calls, the running frame first.  `saved` is what the
caller left behind to go on from. -/
inductive CallChain (α : Type v) (κ : Type w) where
  | root (frame : α)
  | call (frame : α) (saved : κ) (caller : CallChain α κ)

namespace CallChain

def top : CallChain α κ → α
  | root frame => frame
  | call frame _ _ => frame

def frames : CallChain α κ → List α
  | root frame => [frame]
  | call frame _ caller => frame :: caller.frames

/-- The frames that wait for the one they called. -/
def waiting : CallChain α κ → List α
  | root _ => []
  | call _ _ caller => caller.frames

theorem frames_eq (chain : CallChain α κ) :
    chain.frames = chain.top :: chain.waiting := by
  cases chain <;> rfl

theorem top_mem_frames (chain : CallChain α κ) : chain.top ∈ chain.frames := by
  cases chain with
  | root frame => exact List.mem_singleton_self frame
  | call frame saved caller => exact List.mem_cons_self

end CallChain

/-- One chain for every thread; no frame is in two places. -/
structure Threads (τ : Type u) (α : Type v) (κ : Type w) where
  chain : τ → CallChain α κ
  nodup : ∀ thread, (chain thread).frames.Nodup
  disjoint : ∀ thread other, thread ≠ other →
    (chain thread).frames.Disjoint (chain other).frames

namespace Threads

/-- The frame is in none of the chains. -/
def Fresh (threads : Threads τ α κ) (frame : α) : Prop :=
  ∀ thread, frame ∉ (threads.chain thread).frames

theorem thread_unique (threads : Threads τ α κ) {thread other : τ} {frame : α}
    (hmem : frame ∈ (threads.chain thread).frames)
    (hother : frame ∈ (threads.chain other).frames) : thread = other := by
  by_contra hne
  exact threads.disjoint thread other hne hmem hother

theorem top_injective (threads : Threads τ α κ) :
    Function.Injective fun thread => (threads.chain thread).top := by
  intro thread other
    (htop : (threads.chain thread).top = (threads.chain other).top)
  exact threads.thread_unique (threads.chain thread).top_mem_frames
    (htop ▸ (threads.chain other).top_mem_frames)

theorem callee_ne_caller (threads : Threads τ α κ) {thread : τ} {frame : α}
    {saved : κ} {caller : CallChain α κ}
    (hchain : threads.chain thread = .call frame saved caller) :
    frame ≠ caller.top := by
  have hnodup := threads.nodup thread
  rw [hchain] at hnodup
  intro heq
  exact (List.nodup_cons.mp hnodup).1 (heq ▸ caller.top_mem_frames)

variable [DecidableEq τ]

/-- The running frame of the thread calls a fresh one. -/
def push (threads : Threads τ α κ) (thread : τ) (frame : α) (saved : κ)
    (hfresh : threads.Fresh frame) : Threads τ α κ where
  chain := Function.update threads.chain thread
    (.call frame saved (threads.chain thread))
  nodup := by
    intro other
    by_cases hsame : other = thread
    · subst hsame
      rw [Function.update_self]
      exact List.nodup_cons.mpr ⟨hfresh other, threads.nodup other⟩
    · rw [Function.update_of_ne hsame]
      exact threads.nodup other
  disjoint := by
    intro first second hne
    by_cases hfirst : first = thread
    · subst hfirst
      rw [Function.update_self, Function.update_of_ne hne.symm]
      exact List.disjoint_cons_left.mpr
        ⟨hfresh second, threads.disjoint first second hne⟩
    · rw [Function.update_of_ne hfirst]
      by_cases hsecond : second = thread
      · subst hsecond
        rw [Function.update_self]
        exact List.disjoint_cons_right.mpr
          ⟨hfresh first, threads.disjoint first second hne⟩
      · rw [Function.update_of_ne hsecond]
        exact threads.disjoint first second hne

/-- The running frame of the thread returns to its caller. -/
def pop (threads : Threads τ α κ) (thread : τ) {frame : α} {saved : κ}
    {caller : CallChain α κ}
    (hchain : threads.chain thread = .call frame saved caller) :
    Threads τ α κ where
  chain := Function.update threads.chain thread caller
  nodup := by
    intro other
    by_cases hsame : other = thread
    · subst hsame
      have hnodup := threads.nodup other
      rw [hchain] at hnodup
      rw [Function.update_self]
      exact (List.nodup_cons.mp hnodup).2
    · rw [Function.update_of_ne hsame]
      exact threads.nodup other
  disjoint := by
    have hsub : ∀ a ∈ caller.frames, a ∈ (threads.chain thread).frames := by
      intro a ha
      rw [hchain]
      exact List.mem_cons_of_mem frame ha
    intro first second hne
    by_cases hfirst : first = thread
    · subst hfirst
      rw [Function.update_self, Function.update_of_ne hne.symm]
      exact fun a ha => threads.disjoint first second hne (hsub a ha)
    · rw [Function.update_of_ne hfirst]
      by_cases hsecond : second = thread
      · subst hsecond
        rw [Function.update_self]
        exact fun a hl hr => threads.disjoint first second hne hl (hsub a hr)
      · rw [Function.update_of_ne hsecond]
        exact threads.disjoint first second hne

section Chains

variable (threads : Threads τ α κ) {thread other : τ} {frame : α} {saved : κ}
  {caller : CallChain α κ}

@[simp]
theorem push_chain_self (hfresh : threads.Fresh frame) :
    (threads.push thread frame saved hfresh).chain thread =
      .call frame saved (threads.chain thread) :=
  Function.update_self ..

theorem push_chain_other (hfresh : threads.Fresh frame)
    (hother : other ≠ thread) :
    (threads.push thread frame saved hfresh).chain other =
      threads.chain other :=
  Function.update_of_ne hother ..

@[simp]
theorem pop_chain_self
    (hchain : threads.chain thread = .call frame saved caller) :
    (threads.pop thread hchain).chain thread = caller :=
  Function.update_self ..

theorem pop_chain_other
    (hchain : threads.chain thread = .call frame saved caller)
    (hother : other ≠ thread) :
    (threads.pop thread hchain).chain other = threads.chain other :=
  Function.update_of_ne hother ..

theorem fresh_of_push {a : α} {hfresh : threads.Fresh frame}
    (hstill : (threads.push thread frame saved hfresh).Fresh a) :
    a ≠ frame ∧ threads.Fresh a := by
  have hself := hstill thread
  rw [push_chain_self, CallChain.frames, List.mem_cons, not_or] at hself
  obtain ⟨hne, hself⟩ := hself
  refine ⟨hne, ?_⟩
  intro other hmem
  by_cases hother : other = thread
  · exact hself (hother ▸ hmem)
  · exact hstill other ((threads.push_chain_other hfresh hother).symm ▸ hmem)

theorem fresh_of_pop {a : α}
    {hchain : threads.chain thread = .call frame saved caller}
    (hnow : (threads.pop thread hchain).Fresh a) (hne : a ≠ frame) :
    threads.Fresh a := by
  intro other hmem
  by_cases hother : other = thread
  · subst hother
    rw [hchain] at hmem
    have hself := hnow other
    rw [pop_chain_self] at hself
    exact hself ((List.mem_cons.mp hmem).resolve_left hne)
  · exact hnow other ((threads.pop_chain_other hchain hother).symm ▸ hmem)

end Chains

end Threads

/-- What a step shows of the calls. -/
inductive CallLabel (τ : Type u) (α : Type v) (κ : Type w) where
  | call (thread : τ) (caller callee : α) (saved : κ)
  | ret (thread : τ) (caller callee : α) (saved : κ)
  | silent

/-- The label starts or ends the frame. -/
def CallLabel.Touches (frame : α) : CallLabel τ α κ → Prop
  | call _ _ callee _ => callee = frame
  | ret _ _ callee _ => callee = frame
  | silent => False

inductive CallStep [DecidableEq τ] :
    Threads τ α κ → CallLabel τ α κ → Threads τ α κ → Prop where
  | call (threads : Threads τ α κ) (thread : τ) (frame : α) (saved : κ)
      (hfresh : threads.Fresh frame) :
      CallStep threads (.call thread (threads.chain thread).top frame saved)
        (threads.push thread frame saved hfresh)
  | ret (threads : Threads τ α κ) (thread : τ) {frame : α} {saved : κ}
      {caller : CallChain α κ}
      (hchain : threads.chain thread = .call frame saved caller) :
      CallStep threads (.ret thread caller.top frame saved)
        (threads.pop thread hchain)
  | silent (threads : Threads τ α κ) : CallStep threads .silent threads

inductive CallRun [DecidableEq τ] (start : Threads τ α κ) :
    List (CallLabel τ α κ) → Threads τ α κ → Prop where
  | nil : CallRun start [] start
  | concat {labels : List (CallLabel τ α κ)} {label : CallLabel τ α κ}
      {threads next : Threads τ α κ} (earlier : CallRun start labels threads)
      (hstep : CallStep threads label next) :
      CallRun start (labels ++ [label]) next

/-- The return at `h` belongs to the call at `e`: it is of the same frame, with
what the caller saved then, and nothing in between starts or ends the frame. -/
structure Returns (labels : List (CallLabel τ α κ)) (e h : Nat) (thread : τ)
    (caller callee : α) (saved : κ) : Prop where
  call : labels[e]? = some (.call thread caller callee saved)
  ret : labels[h]? = some (.ret thread caller callee saved)
  lt : e < h
  between : ∀ j label, e < j → j < h → labels[j]? = some label →
    ¬ label.Touches callee

section Pairing

variable {labels more : List (CallLabel τ α κ)} {thread : τ}

theorem getElem?_append_of_some {β : Type v} {first second : List β} {i : Nat}
    {b : β} (hget : first[i]? = some b) : (first ++ second)[i]? = some b := by
  obtain ⟨hlt, -⟩ := List.getElem?_eq_some_iff.mp hget
  rw [List.getElem?_append_left hlt, hget]

theorem Returns.append {e h : Nat} {caller callee : α} {saved : κ}
    (hreturns : Returns labels e h thread caller callee saved) :
    Returns (labels ++ more) e h thread caller callee saved := by
  obtain ⟨hcall, hret, hlt, hbetween⟩ := hreturns
  refine ⟨getElem?_append_of_some hcall, getElem?_append_of_some hret, hlt, ?_⟩
  intro j label hej hjh hlabel
  obtain ⟨hlen, -⟩ := List.getElem?_eq_some_iff.mp hret
  rw [List.getElem?_append_left (Nat.lt_trans hjh hlen)] at hlabel
  exact hbetween j label hej hjh hlabel

/-- Every call the thread made from `lower` on and before `upper` has been
returned from. -/
def Settled (labels : List (CallLabel τ α κ)) (thread : τ)
    (lower upper : Nat) : Prop :=
  ∀ e caller callee saved, lower ≤ e → e < upper →
    labels[e]? = some (.call thread caller callee saved) →
    ∃ h, Returns labels e h thread caller callee saved

/-- The chain is what the calls before `upper` amount to: each frame but the
root was started by a call that is still open, the calls of the chain follow
each other in time, and all others are settled. -/
def Tracks (labels : List (CallLabel τ α κ)) (thread : τ) :
    CallChain α κ → Nat → Prop
  | .root _, upper => Settled labels thread 0 upper
  | .call frame saved caller, upper => ∃ e, e < upper ∧
      labels[e]? = some (.call thread caller.top frame saved) ∧
      (∀ j label, e < j → labels[j]? = some label → ¬ label.Touches frame) ∧
      Settled labels thread (e + 1) upper ∧ Tracks labels thread caller e

theorem Settled.append {lower upper : Nat}
    (hsettled : Settled labels thread lower upper)
    (hupper : upper ≤ labels.length) :
    Settled (labels ++ more) thread lower upper := by
  intro e caller callee saved hlower hlt hcall
  rw [List.getElem?_append_left (by omega)] at hcall
  obtain ⟨h, hreturns⟩ := hsettled e caller callee saved hlower hlt hcall
  exact ⟨h, hreturns.append⟩

theorem Settled.join {lower middle upper : Nat}
    (hfirst : Settled labels thread lower middle)
    (hsecond : Settled labels thread middle upper) :
    Settled labels thread lower upper := by
  intro e caller callee saved hlower hupper hcall
  rcases Nat.lt_or_ge e middle with hlt | hge
  · exact hfirst e caller callee saved hlower hlt hcall
  · exact hsecond e caller callee saved hge hupper hcall

/-- A last label that is no call of the thread settles itself. -/
theorem settled_last {label : CallLabel τ α κ}
    (hlabel : ∀ caller callee saved,
      label ≠ .call thread caller callee saved) :
    Settled (labels ++ [label]) thread labels.length
      (labels.length + 1) := by
  intro e caller callee saved hlower hupper hcall
  obtain rfl : e = labels.length := by omega
  rw [List.getElem?_concat_length] at hcall
  exact absurd (Option.some.inj hcall) (hlabel caller callee saved)

theorem Tracks.append {label : CallLabel τ α κ} {chain : CallChain α κ}
    {upper : Nat} (htracks : Tracks labels thread chain upper)
    (hupper : upper ≤ labels.length)
    (hapart : ∀ frame ∈ chain.frames, ¬ label.Touches frame) :
    Tracks (labels ++ [label]) thread chain upper := by
  induction chain generalizing upper with
  | root frame => exact Settled.append htracks hupper
  | call frame saved caller ih =>
      obtain ⟨e, hlt, hcall, hopen, hsettled, hcaller⟩ := htracks
      refine ⟨e, hlt, getElem?_append_of_some hcall, ?_,
        hsettled.append hupper, ?_⟩
      · intro j other hej hother
        rcases Nat.lt_or_ge j labels.length with hold | hnew
        · rw [List.getElem?_append_left hold] at hother
          exact hopen j other hej hother
        · obtain rfl : j = labels.length := by
            obtain ⟨hj, -⟩ := List.getElem?_eq_some_iff.mp hother
            simp only [List.length_append, List.length_singleton] at hj
            omega
          rw [List.getElem?_concat_length] at hother
          rw [← Option.some.inj hother]
          exact hapart frame List.mem_cons_self
      · exact ih hcaller (by omega) fun a ha =>
          hapart a (List.mem_cons_of_mem frame ha)

theorem Tracks.extend {chain : CallChain α κ} {upper later : Nat}
    (htracks : Tracks labels thread chain upper) (hle : upper ≤ later)
    (hsettled : Settled labels thread upper later) :
    Tracks labels thread chain later := by
  cases chain with
  | root frame => exact Settled.join htracks hsettled
  | call frame saved caller =>
      obtain ⟨e, hlt, hcall, hopen, hbefore, hcaller⟩ := htracks
      exact ⟨e, by omega, hcall, hopen, hbefore.join hsettled, hcaller⟩

/-- The caller of a frame that has not returned is waiting. -/
theorem Tracks.caller_waiting {chain : CallChain α κ} {upper e : Nat}
    {caller callee : α} {saved : κ}
    (htracks : Tracks labels thread chain upper) (he : e < upper)
    (hcall : labels[e]? = some (.call thread caller callee saved))
    (hopen : ∀ j label, e < j → labels[j]? = some label →
      ¬ label.Touches callee) : caller ∈ chain.waiting := by
  have hunsettled {lower upper : Nat} (hlower : lower ≤ e) (hupper : e < upper)
      (hsettled : Settled labels thread lower upper) : False := by
    obtain ⟨h, hreturns⟩ :=
      hsettled e caller callee saved hlower hupper hcall
    exact hopen h _ hreturns.lt hreturns.ret rfl
  induction chain generalizing upper with
  | root frame => exact (hunsettled (Nat.zero_le e) he htracks).elim
  | call frame saved' above ih =>
      obtain ⟨e', -, hcall', -, hsettled, habove⟩ := htracks
      rcases Nat.lt_trichotomy e e' with hless | rfl | hmore
      · rw [CallChain.waiting, above.frames_eq]
        exact List.mem_cons_of_mem above.top (ih habove hless)
      · obtain ⟨-, rfl, -, -⟩ := CallLabel.call.inj
          (Option.some.inj (hcall.symm.trans hcall'))
        exact above.top_mem_frames
      · exact (hunsettled hmore he hsettled).elim

/-- The calling thread: the new call is the open one on top. -/
theorem Tracks.push {chain : CallChain α κ} {frame : α} {saved : κ}
    (htracks : Tracks labels thread chain labels.length)
    (hfresh : frame ∉ chain.frames) :
    Tracks (labels ++ [.call thread chain.top frame saved]) thread
      (.call frame saved chain) (labels.length + 1) := by
  refine ⟨labels.length, Nat.lt_succ_self _, List.getElem?_concat_length,
    ?_, ?_, ?_⟩
  · intro j label hj hlabel
    obtain ⟨hlt, -⟩ := List.getElem?_eq_some_iff.mp hlabel
    simp only [List.length_append, List.length_singleton] at hlt
    omega
  · intro e caller callee other hlower hupper
    omega
  · exact htracks.append (Nat.le_refl _) fun a ha (heq : frame = a) =>
      hfresh (heq ▸ ha)

/-- The returning thread: the call on top is settled by this return. -/
theorem Tracks.pop {caller : CallChain α κ} {frame : α} {saved : κ}
    (htracks : Tracks labels thread (.call frame saved caller) labels.length)
    (hnodup : frame ∉ caller.frames) :
    Tracks (labels ++ [.ret thread caller.top frame saved]) thread caller
      (labels.length + 1) := by
  obtain ⟨e, hlt, hcall, hopen, hsettled, hcaller⟩ := htracks
  have hreturns : Returns (labels ++ [.ret thread caller.top frame saved]) e
      labels.length thread caller.top frame saved := by
    refine ⟨getElem?_append_of_some hcall, List.getElem?_concat_length, hlt,
      ?_⟩
    intro j label hej hjn hlabel
    rw [List.getElem?_append_left hjn] at hlabel
    exact hopen j label hej hlabel
  have hthis : Settled (labels ++ [.ret thread caller.top frame saved]) thread
      e (e + 1) := by
    intro e' caller' callee' saved' hlower hupper hcall'
    obtain rfl : e' = e := by omega
    obtain ⟨-, rfl, rfl, rfl⟩ := CallLabel.call.inj
      (Option.some.inj (hcall'.symm.trans hreturns.call))
    exact ⟨labels.length, hreturns⟩
  have happend : Tracks (labels ++ [.ret thread caller.top frame saved])
      thread caller e :=
    hcaller.append (by omega) fun a ha (heq : frame = a) => hnodup (heq ▸ ha)
  refine happend.extend (by omega) ?_
  exact hthis.join ((hsettled.append (Nat.le_refl _)).join
    (settled_last fun _ _ _ => nofun))

/-- A thread that takes no part in the step. -/
theorem Tracks.other {label : CallLabel τ α κ} {chain : CallChain α κ}
    (htracks : Tracks labels thread chain labels.length)
    (hapart : ∀ frame ∈ chain.frames, ¬ label.Touches frame)
    (hlabel : ∀ caller callee saved,
      label ≠ .call thread caller callee saved) :
    Tracks (labels ++ [label]) thread chain (labels.length + 1) :=
  (htracks.append (Nat.le_refl _) hapart).extend (Nat.le_succ _)
    (settled_last hlabel)

end Pairing

namespace CallRun

variable [DecidableEq τ] {start threads : Threads τ α κ}
  {labels : List (CallLabel τ α κ)}

theorem tracks (hrun : CallRun start labels threads)
    (hroots : ∀ thread, ∃ frame, start.chain thread = .root frame)
    (thread : τ) :
    Tracks labels thread (threads.chain thread) labels.length := by
  induction hrun with
  | nil =>
      obtain ⟨frame, hroot⟩ := hroots thread
      rw [hroot]
      intro e caller callee saved hlower hupper
      exact absurd hupper (Nat.not_lt_zero e)
  | @concat labels label before next _ hstep ih =>
      rw [List.length_append, List.length_singleton]
      cases hstep with
      | call actor frame saved hfresh =>
          by_cases hactor : thread = actor
          · subst hactor
            rw [Threads.push_chain_self]
            exact ih.push (hfresh thread)
          · rw [before.push_chain_other hfresh hactor]
            refine ih.other ?_ ?_
            · exact fun a ha (heq : frame = a) => hfresh thread (heq ▸ ha)
            · rintro _ _ _ heq
              exact hactor (CallLabel.call.inj heq).1.symm
      | @ret actor frame saved caller hchain =>
          have hmem : frame ∈ (before.chain actor).frames := by
            rw [hchain]
            exact List.mem_cons_self
          by_cases hactor : thread = actor
          · subst hactor
            have hnodup := before.nodup thread
            rw [hchain] at ih hnodup
            rw [Threads.pop_chain_self]
            exact ih.pop (List.nodup_cons.mp hnodup).1
          · rw [before.pop_chain_other hchain hactor]
            refine ih.other ?_ fun _ _ _ => nofun
            rintro a ha (rfl : frame = a)
            exact hactor (before.thread_unique ha hmem)
      | silent => exact ih.other (fun _ _ => id) fun _ _ _ => nofun

/-- While a call is open, its caller is not the running frame of any
thread. -/
theorem caller_ne_top (hrun : CallRun start labels threads)
    (hroots : ∀ thread, ∃ frame, start.chain thread = .root frame)
    {e : Nat} {thread : τ} {caller callee : α} {saved : κ}
    (hcall : labels[e]? = some (.call thread caller callee saved))
    (hopen : ∀ j label, e < j → labels[j]? = some label →
      ¬ label.Touches callee) (other : τ) :
    (threads.chain other).top ≠ caller := by
  obtain ⟨he, -⟩ := List.getElem?_eq_some_iff.mp hcall
  have hwaiting := (hrun.tracks hroots thread).caller_waiting he hcall hopen
  have hnodup := threads.nodup thread
  rw [CallChain.frames_eq, List.nodup_cons] at hnodup
  rintro rfl
  have hmem : (threads.chain other).top ∈ (threads.chain thread).frames := by
    rw [(threads.chain thread).frames_eq]
    exact List.mem_cons_of_mem _ hwaiting
  have hsame : thread = other :=
    threads.thread_unique hmem (threads.chain other).top_mem_frames
  exact hnodup.1 (hsame ▸ hwaiting)

/-- Where a label of a run comes from. -/
theorem split (hrun : CallRun start labels threads) {i : Nat}
    {label : CallLabel τ α κ} (hlabel : labels[i]? = some label) :
    ∃ before after, CallRun start (labels.take i) before ∧
      CallStep before label after := by
  induction hrun with
  | nil => simp at hlabel
  | @concat labels last before next hearlier hstep ih =>
      rcases Nat.lt_or_ge i labels.length with hold | hnew
      · rw [List.getElem?_append_left hold] at hlabel
        rw [List.take_append_of_le_length (Nat.le_of_lt hold)]
        exact ih hlabel
      · obtain rfl : i = labels.length := by
          obtain ⟨hi, -⟩ := List.getElem?_eq_some_iff.mp hlabel
          simp only [List.length_append, List.length_singleton] at hi
          omega
        rw [List.getElem?_concat_length] at hlabel
        rw [List.take_left, ← Option.some.inj hlabel]
        exact ⟨before, next, hearlier, hstep⟩

/-- Every return belongs to an earlier call, and whatever its thread called
after that has been returned from before. -/
theorem ret_paired (hrun : CallRun start labels threads)
    (hroots : ∀ thread, ∃ frame, start.chain thread = .root frame)
    {h : Nat} {thread : τ} {caller callee : α} {saved : κ}
    (hret : labels[h]? = some (.ret thread caller callee saved)) :
    ∃ e, Returns labels e h thread caller callee saved ∧
      ∀ e' caller' callee' saved', e < e' → e' < h →
        labels[e']? = some (.call thread caller' callee' saved') →
        ∃ h', h' < h ∧
          Returns labels e' h' thread caller' callee' saved' := by
  obtain ⟨before, after, hbefore, hstep⟩ := hrun.split hret
  obtain ⟨hlt, -⟩ := List.getElem?_eq_some_iff.mp hret
  have hlen : (labels.take h).length = h :=
    List.length_take_of_le (Nat.le_of_lt hlt)
  have htracks := hbefore.tracks hroots thread
  cases hstep with
  | ret _ hchain =>
      rw [hchain, hlen] at htracks
      obtain ⟨e, heh, hcall, hopen, hsettled, -⟩ := htracks
      rw [List.getElem?_take_of_lt heh] at hcall
      refine ⟨e, ⟨hcall, hret, heh, ?_⟩, ?_⟩
      · intro j label hej hjh hlabel
        exact hopen j label hej
          ((List.getElem?_take_of_lt hjh).trans hlabel)
      · intro e' caller' callee' saved' hee' heh' hcall'
        obtain ⟨h', hreturns⟩ := hsettled e' caller' callee' saved' hee' heh'
          ((List.getElem?_take_of_lt heh').trans hcall')
        obtain ⟨hlt', -⟩ := List.getElem?_eq_some_iff.mp hreturns.ret
        refine ⟨h', by omega, ?_⟩
        rw [← List.take_append_drop h labels]
        exact hreturns.append

end CallRun

end PsychOS

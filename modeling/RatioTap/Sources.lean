import RatioTap.Lib.Polyphase
import RatioTap.PullStream

/-!
# Sources

What a callback sees of a `pull`.  The calls that `pull` records are all that were made of the
callback, one after the other, and each has the answer that the callback gave in the state it
was then in (`Converter.pull_answered`).

A queue of frames is such a callback (`fifo`): what its calls took in and what they left of it
make up the queue, and a queue that delivers nothing is empty.
-/

namespace RatioTap

open FlatMemory PopCall

/-! ### Runs -/

namespace PopFn

variable {S : Type}

/-- The state of a source after it was called. -/
def stateAfter (p : PopFn S) (st : p.State) (calls : List (PopCall S)) : p.State :=
  calls.foldl (fun st c => (p.call st c.want).1) st

/-- The source in another state. -/
def withState (p : PopFn S) (st : p.State) : PopFn S := { p with state := st }

/-- The source after it was called. -/
def after (p : PopFn S) (calls : List (PopCall S)) : PopFn S :=
  p.withState (p.stateAfter p.state calls)

@[simp] lemma after_nil (p : PopFn S) : p.after [] = p := rfl

@[simp] lemma after_cons (p : PopFn S) (c : PopCall S) (cs : List (PopCall S)) :
    p.after (c :: cs) = (p.next c.want).after cs := rfl

lemma after_append (p : PopFn S) (cs ds : List (PopCall S)) :
    p.after (cs ++ ds) = (p.after cs).after ds := by
  induction cs generalizing p with
  | nil => rfl
  | cons c cs ih => rw [List.cons_append, after_cons, after_cons, ih]

/-- The calls are a run of the source: each was answered by the state it found. -/
inductive Answered : PopFn S → List (PopCall S) → Prop
  | nil (p : PopFn S) : Answered p []
  | cons {p : PopFn S} {c : PopCall S} {cs : List (PopCall S)} (hgot : c.got = p.got c.want)
      (hdst : c.dst = p.dst c.want) (h : Answered (p.next c.want) cs) : Answered p (c :: cs)

lemma Answered.append {p : PopFn S} {cs ds : List (PopCall S)} (h : Answered p cs)
    (h' : Answered (p.after cs) ds) : Answered p (cs ++ ds) := by
  induction h with
  | nil p => exact h'
  | cons hgot hdst _ ih => exact .cons hgot hdst (ih h')

end PopFn

/-- The last call, if there was one, left nothing pending. -/
def LastFull {S : Type} (calls : List (PopCall S)) : Prop :=
  ∀ c, calls.getLast? = some c → c.after = 0

namespace LastFull

variable {S : Type} {c : PopCall S} {cs ds : List (PopCall S)}

lemma cons (h : LastFull cs) (h0 : cs = [] → c.after = 0) : LastFull (c :: cs) := by
  intro d hd
  cases cs with
  | nil =>
      obtain rfl := Option.some.inj hd
      exact h0 rfl
  | cons e cs => exact h d (by rwa [List.getLast?_cons_cons] at hd)

lemma append (h : LastFull cs) (h' : LastFull ds) : LastFull (cs ++ ds) := by
  intro d hd
  rw [List.getLast?_append, Option.or_eq_some_iff] at hd
  rcases hd with hd | ⟨-, hd⟩
  · exact h' d hd
  · exact h d hd

end LastFull

section Runs

variable {D : Direction} {S K : Type} {k : Kernels S K}

/-- The gap-filling loop runs the source, and its last call fills the gap. -/
lemma Converter.popFill_answered (s : Converter D S K) (pop : PopFn S) :
    pop.Answered (s.popFill pop).calls ∧ (s.popFill pop).pop = pop.after (s.popFill pop).calls ∧
      ((s.popFill pop).dry = false → LastFull (s.popFill pop).calls) := by
  -- the induction is on the gap, as the loop is
  obtain ⟨p, hp⟩ : ∃ p, p = s.mPending := ⟨_, rfl⟩
  induction p using Nat.strong_induction_on generalizing s pop with
  | _ p ih =>
      by_cases h0 : p = 0
      · rw [Converter.popFill_zero (hp.symm.trans h0)]
        exact ⟨.nil pop, rfl, fun _ c hc => nomatch hc⟩
      by_cases hgot : pop.got (Converter.popWant p) = 0
      · rw [Converter.popFill_dry hp h0 hgot]
        exact ⟨.cons hgot.symm rfl (.nil _), rfl, fun h => nomatch h⟩
      · rw [Converter.popFill_deliver hp h0 hgot]
        let t := s.takeFrames (pop.dst (Converter.popWant p))
          (min (pop.got (Converter.popWant p)) (Converter.popWant p))
        have hlt : t.mPending < p := by
          rw [Converter.takeFrames_mPending, ← hp]
          exact Converter.dec32_iterate_lt
            (Nat.lt_min.2 ⟨Nat.pos_of_ne_zero hgot, Converter.popWant_pos h0⟩)
            ((min_le_right _ _).trans (Converter.popWant_le p))
        obtain ⟨hans, hpop, hlast⟩ := ih t.mPending hlt t (pop.next (Converter.popWant p)) rfl
        refine ⟨.cons rfl rfl hans, hpop, fun hd => (hlast hd).cons ?_⟩
        -- when nothing more was asked for, nothing was pending
        intro hnil
        by_contra hne
        by_cases hg : (pop.next (Converter.popWant p)).got (Converter.popWant t.mPending) = 0
        · rw [Converter.popFill_dry rfl hne hg] at hnil
          cases hnil
        · rw [Converter.popFill_deliver rfl hne hg] at hnil
          cases hnil

/-- The loop over the outputs runs the source, and its last call fills a gap. -/
lemma Converter.pullLoop_answered (todo n : ℕ) (s : Converter D S K) (out : ℕ → S)
    (pop : PopFn S) :
    pop.Answered (pullLoop k todo n s out pop).calls ∧
      (pullLoop k todo n s out pop).pop = pop.after (pullLoop k todo n s out pop).calls ∧
      ((pullLoop k todo n s out pop).ret = n + todo →
        LastFull (pullLoop k todo n s out pop).calls) := by
  induction todo generalizing n s out pop with
  | zero => exact ⟨.nil pop, rfl, fun _ c hc => nomatch hc⟩
  | succ todo ih =>
      obtain ⟨hans, hpop, hlast⟩ := s.popFill_answered pop
      rw [pullLoop]
      cases hd : (s.popFill pop).dry with
      | true =>
          simp only [if_true]
          exact ⟨hans, hpop, fun h => by omega⟩
      | false =>
          simp only [Bool.false_eq_true, if_false]
          let e := (s.popFill pop).conv.emit k out (n * s.mChannels)
          obtain ⟨hans', hpop', hlast'⟩ := ih (n + 1) e.1 e.2 (s.popFill pop).pop
          rw [← Nat.add_right_comm, Nat.add_assoc] at hlast'
          refine ⟨hans.append (hpop ▸ hans'), ?_, fun h => (hlast hd).append (hlast' h)⟩
          rw [PopFn.after_append, ← hpop]
          exact hpop'

/-- So does `pull`. -/
lemma Converter.pull_answered (s : Converter D S K) (out : ℕ → S) (outFrames : ℕ)
    (pop : PopFn S) :
    pop.Answered (s.pull k out outFrames pop).calls ∧
      (s.pull k out outFrames pop).pop = pop.after (s.pull k out outFrames pop).calls ∧
      ((s.pull k out outFrames pop).ret = outFrames →
        LastFull (s.pull k out outFrames pop).calls) := by
  have h := pullLoop_answered (k := k) outFrames 0 s out pop
  rwa [Nat.zero_add] at h

end Runs

lemma getLast?_of_ranDry {S : Type} {calls : List (PopCall S)} (h : RanDry calls) :
    ∃ c, calls.getLast? = some c ∧ c.got = 0 := by
  obtain ⟨ds, c, rfl, hc, -⟩ := h
  exact ⟨c, List.getLast?_concat, hc⟩

/-! ### A queue -/

section Queue

variable {S : Type}

/-- A callback that delivers from the front of a queue of frames, `C` samples each. -/
def fifo (C : ℕ) (z : S) (queue : List (List S)) : PopFn S where
  State := List (List S)
  state := queue
  call queue want :=
    (queue.drop want, min queue.length want, fun i => (queue.getD (i / C) []).getD (i % C) z)

/-- What the calls leave of the queue. -/
def fifoAfter (C : ℕ) (z : S) (queue : List (List S)) (calls : List (PopCall S)) :
    List (List S) :=
  (fifo C z queue).stateAfter queue calls

variable {C n : ℕ} {z : S} {queue : List (List S)} {calls : List (PopCall S)}

/-- The frames at the front of the queue are the frames delivered. -/
lemma framesFrom_fifo (hqueue : ∀ f ∈ queue, f.length = C) (hn : n ≤ queue.length) :
    framesFrom (fun i => (queue.getD (i / C) []).getD (i % C) z) C n = queue.take n := by
  apply List.ext_getElem (by simp [hn])
  intro j hj _
  rw [length_framesFrom] at hj
  have hlt : j < queue.length := by omega
  have hlen := hqueue queue[j] (List.getElem_mem hlt)
  apply List.ext_getElem (by simp [framesFrom, hlen])
  intro i hi _
  have hi : i < C := by simpa [framesFrom] using hi
  simp [framesFrom, frameAt, Polyphase.div_index j hi, Nat.mod_eq_of_lt hi, hlt, hlen, hi]

/-- What was taken from the queue and what is left of it. -/
lemma fifo_drawn (hqueue : ∀ f ∈ queue, f.length = C) (h : (fifo C z queue).Answered calls) :
    drawn C calls ++ fifoAfter C z queue calls = queue := by
  induction calls generalizing queue with
  | nil => rfl
  | cons c calls ih =>
      cases h with
      | cons hgot hdst hrest =>
          have hgot : c.got = min queue.length c.want := hgot
          have hframes : c.frames C = queue.take c.want := by
            rw [frames, accepted, hgot, hdst, Nat.min_assoc, Nat.min_self]
            refine (framesFrom_fifo hqueue (Nat.min_le_left _ _)).trans ?_
            rw [← List.take_take, List.take_of_length_le (List.length_take_le' _ _)]
          have hrest := ih (fun f hf => hqueue f (List.mem_of_mem_drop hf)) hrest
          rw [drawn_cons, hframes, List.append_assoc]
          exact (congrArg _ hrest).trans (List.take_append_drop c.want queue)

/-- A queue that delivers nothing is empty. -/
lemma fifo_dry (h : (fifo C z queue).Answered calls) (hwant : ∀ c ∈ calls, 1 ≤ c.want)
    (hdry : ∃ c, calls.getLast? = some c ∧ c.got = 0) :
    fifoAfter C z queue calls = [] := by
  induction calls generalizing queue with
  | nil =>
      obtain ⟨c, hc, -⟩ := hdry
      cases hc
  | cons c calls ih =>
      cases h with
      | cons hgot hdst hrest =>
          have hgot : c.got = min queue.length c.want := hgot
          have hpos := hwant c List.mem_cons_self
          obtain ⟨d, hd, hzero⟩ := hdry
          by_cases hcalls : calls = []
          · subst hcalls
            obtain rfl : c = d := Option.some.inj hd
            obtain rfl : queue = [] := List.eq_nil_of_length_eq_zero (by omega)
            exact List.drop_nil
          · obtain ⟨e, es, rfl⟩ := List.exists_cons_of_ne_nil hcalls
            exact ih hrest (fun b hb => hwant b (List.mem_cons_of_mem c hb))
              ⟨d, by rwa [List.getLast?_cons_cons] at hd, hzero⟩

end Queue

end RatioTap

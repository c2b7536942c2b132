import RatioTap.CApi
import RatioTap.SessionStream

/-!
# Handles of the C interface

A client of the C interface keeps a record of every handle: the arguments it was created with,
the functions it was passed to, and their replies.  It may use a handle from the creation that
returned it to its destruction (`ApiCall.Allowed`); the allocator hands out free addresses.

Every client that keeps to this stays within defined behaviour, whatever handles it holds at
once and in whatever order it uses them (`Represents.run`).  A handle behaves as if it were the
only one: its replies are those of a converter that is driven by its own calls alone
(`handles_are_sessions`).  The objects in memory are exactly those of the live handles
(`handles_own_memory`), so that a failed creation gives back all that it took, and after the
last destruction nothing is left.
-/

namespace RatioTap.CApi

variable {F S K : Type}

/-- The record of a handle. -/
structure Life (S : Type) where
  direction : Direction
  profile : Profile
  channels : ℕ
  calls : List (Op S × Reply S)

/-- The direction that a number names. -/
def directionOf (direction : ℤ) : Direction :=
  if direction = 0 then .upTo48k else .downTo44k1

/-- The memory of the interface, and the records of its client. -/
structure World (S K : Type) where
  heap : Heap S K
  lives : ℕ → Option (Life S)

/-- The records after one more call and its answer. -/
def record (lives : ℕ → Option (Life S)) : ApiCall S → Answer S → ℕ → Option (Life S)
  | .create _ direction profile channels, .handle c =>
    if c = 0 then lives
    else Function.update lives c
      (some ⟨directionOf direction, profileOf profile, channels, []⟩)
  | .destroy c, .destroyed => Function.update lives c none
  | .op c op, .reply r =>
    Function.update lives c
      ((lives c).map fun ℓ => { ℓ with calls := ℓ.calls ++ [(op, r)] })
  | _, _ => lives

/-- The allocator hands out free addresses, and the client uses live handles. -/
def ApiCall.Allowed (w : World S K) : ApiCall S → Prop
  | .create g _ _ _ => (∀ c, g.wrapper = some c → w.heap.IsFree c) ∧
      ∀ a, g.conv = some a → w.heap.IsFree a ∧ g.wrapper ≠ some a
  | .destroy c => c = 0 ∨ (w.lives c).isSome
  | .op c _ => (w.lives c).isSome

namespace World

/-- Nothing is allocated. -/
def empty : World S K := ⟨.empty, fun _ => none⟩

variable [Zero F] [One F] [Add F] [Mul F] [Div F] [Zero K] [Zero S]

/-- One call. -/
def step (A : Word) (env : Env F S K) (w : World S K) (call : ApiCall S) : Option (World S K) :=
  (call.exec A env w.heap).map fun r => ⟨r.1, record w.lives call r.2⟩

/-- One call after another. -/
def run (A : Word) (env : Env F S K) : World S K → List (ApiCall S) → Option (World S K)
  | w, [] => some w
  | w, call :: calls => (w.step A env call).bind fun w => w.run A env calls

/-- Every call is allowed when it is made. -/
def Valid (A : Word) (env : Env F S K) : World S K → List (ApiCall S) → Prop
  | _, [] => True
  | w, call :: calls =>
    call.Allowed w ∧ ∀ w', w.step A env call = some w' → w'.Valid A env calls

end World

/-! ### A handle on its own -/

/-- The converter after some functions. -/
def Op.after {D : Direction} (A : Word) (k : Kernels S K) (s : Converter D S K)
    (ops : List (Op S)) : Converter D S K := ops.foldl (fun s op => (op.exec A k s).1) s

/-- The replies of some functions, one after the other. -/
def Op.replies {D : Direction} (A : Word) (k : Kernels S K) :
    Converter D S K → List (Op S) → List (Reply S)
  | _, [] => []
  | s, op :: ops => (op.exec A k s).2 :: Op.replies A k (op.exec A k s).1 ops

/-- The call of the converter that a function makes, if it makes one. -/
def Op.calls : Op S → List (Call S)
  | .process inp inFrames out => [.process inp inFrames out]
  | .flush out => [.flush out]
  | .reset => [.reset]
  | _ => []

section Solo

variable {A : Word} {k : Kernels S K} {D : Direction} {s : Converter D S K} {ops : List (Op S)}

lemma Op.after_concat (s : Converter D S K) (ops : List (Op S)) (op : Op S) :
    Op.after A k s (ops ++ [op]) = (op.exec A k (Op.after A k s ops)).1 := by
  simp [Op.after]

lemma Op.replies_concat (s : Converter D S K) (ops : List (Op S)) (op : Op S) :
    Op.replies A k s (ops ++ [op])
      = Op.replies A k s ops ++ [(op.exec A k (Op.after A k s ops)).2] := by
  induction ops generalizing s with
  | nil => rfl
  | cons o ops ih =>
      rw [List.cons_append, Op.replies, ih, Op.replies, List.cons_append]
      rfl

end Solo

/-! ### Arguments -/

lemma profileOf_mem (profile : ℤ) : profileOf profile ∈ Profile.canonical := by
  unfold profileOf
  split_ifs <;> simp [Profile.canonical]

/-- The sizes of the canonical profiles are far from the end of a word. -/
lemma profileOf_fits {pl : ConverterPlatform} (hpl : pl.Sane) (D : Direction) (profile : ℤ) :
    D.kPhases * (profileOf profile).taps D < 2 ^ pl.sizeBits := by
  have hsmall : ∀ p ∈ Profile.canonical, D.kPhases * p.taps D < 2 ^ 16 := by
    cases D <;> decide
  exact (hsmall _ (profileOf_mem profile)).trans_le (Nat.pow_le_pow_right two_pos hpl.sizeBits)

/-- A valid direction is 0 or 1. -/
lemma store_blank {direction profile : ℤ} {channels : ℕ}
    (h : invalidArguments direction profile channels = false) (a : ℕ) :
    RatioConverter.store ⟨direction, 0, 0⟩ (directionOf direction) a
      = .of (directionOf direction) a := by
  have hdir : direction = 0 ∨ direction = 1 := by
    by_contra hne
    rw [not_or] at hne
    simp [invalidArguments, hne] at h
  rcases hdir with rfl | rfl <;> rfl

/-! ### Records and memory -/

/-- An entry of a map with one entry replaced is the new one or an old one. -/
lemma update_eq_some {α β : Type} [DecidableEq α] {f : α → Option β} {i j : α} {x : Option β}
    {y : β} (h : Function.update f i x j = some y) : j = i ∧ x = some y ∨ j ≠ i ∧ f j = some y := by
  rcases eq_or_ne j i with rfl | hne
  · exact .inl ⟨rfl, by rwa [Function.update_self] at h⟩
  · exact .inr ⟨hne, by rwa [Function.update_of_ne hne] at h⟩

lemma update_eq_none {α β : Type} [DecidableEq α] {f : α → Option β} {i j : α} {x : Option β}
    (h : Function.update f i x j = none) : j = i ∧ x = none ∨ j ≠ i ∧ f j = none := by
  rcases eq_or_ne j i with rfl | hne
  · exact .inl ⟨rfl, by rwa [Function.update_self] at h⟩
  · exact .inr ⟨hne, by rwa [Function.update_of_ne hne] at h⟩

section Represents

variable [Zero F] [One F] [Add F] [Mul F] [Div F] [Zero K]

namespace Life

/-- The functions that the handle was passed to. -/
def ops (ℓ : Life S) : List (Op S) := ℓ.calls.map Prod.fst

/-- Their replies. -/
def replies (ℓ : Life S) : List (Reply S) := ℓ.calls.map Prod.snd

/-- The converter that the handle was created with. -/
def fresh (env : Env F S K) (ℓ : Life S) : Converter ℓ.direction S K :=
  .after env.k (env.dsp.table ℓ.direction ℓ.profile) ℓ.channels [] 0 1

/-- The converter that its functions have made of it. -/
def converter (A : Word) (env : Env F S K) (ℓ : Life S) : Converter ℓ.direction S K :=
  Op.after A env.k (ℓ.fresh env) ℓ.ops

/-- The record with one more function. -/
def concat (ℓ : Life S) (op : Op S) (r : Reply S) : Life S :=
  { ℓ with calls := ℓ.calls ++ [(op, r)] }

variable {A : Word} {env : Env F S K}

lemma ops_concat (ℓ : Life S) (op : Op S) (r : Reply S) : (ℓ.concat op r).ops = ℓ.ops ++ [op] := by
  simp [ops, concat]

lemma replies_concat (ℓ : Life S) (op : Op S) (r : Reply S) :
    (ℓ.concat op r).replies = ℓ.replies ++ [r] := by
  simp [replies, concat]

lemma converter_concat (ℓ : Life S) (op : Op S) (r : Reply S) :
    (ℓ.concat op r).converter A env = (op.exec A env.k (ℓ.converter A env)).1 := by
  rw [converter, ops_concat]
  exact Op.after_concat _ _ _

end Life

/-- The memory holds the objects of the live handles, each handle has a pair and a converter of
its own, and every reply so far is that of the handle's own converter. -/
structure Represents (A : Word) (env : Env F S K) (w : World S K) : Prop where
  null : w.lives 0 = none
  owns : ∀ c ℓ, w.lives c = some ℓ → ∃ a ≠ 0,
    w.heap.wrapperAt c = some (.of ℓ.direction a) ∧
      w.heap.convAt ℓ.direction a = some (ℓ.converter A env)
  channels : ∀ c ℓ, w.lives c = some ℓ → ℓ.channels ≠ 0
  answered : ∀ c ℓ, w.lives c = some ℓ → ℓ.replies = Op.replies A env.k (ℓ.fresh env) ℓ.ops
  wrapper : ∀ c, w.lives c = none → w.heap.wrapperAt c = none
  owner : ∀ D a, w.heap.convAt D a ≠ none → ∃ c, w.heap.wrapperAt c = some (.of D a)
  unique : ∀ c c' D a, w.heap.wrapperAt c = some (.of D a) →
    w.heap.wrapperAt c' = some (.of D a) → c = c'

variable {A : Word} {env : Env F S K} {w : World S K} {c a : ℕ} {ℓ : Life S} {D : Direction}

/-- The memory with a new pair at `c` and its converter at `a`. -/
def Heap.create (h : Heap S K) (D : Direction) (c a : ℕ) (s : Converter D S K) : Heap S K :=
  (h.setConv D a (some s)).setWrapper c (some (.of D a))

lemma Represents.empty : Represents A env (World.empty : World S K) := by
  constructor <;> simp [World.empty, Heap.empty]

namespace Represents

/-- Live handles are not null. -/
lemma ne_zero (h : Represents A env w) (hc : w.lives c = some ℓ) : c ≠ 0 := by
  rintro rfl
  rw [h.null] at hc
  cases hc

/-- A pair in memory belongs to a live handle, with its converter. -/
lemma convAt_of_wrapperAt (h : Represents A env w) (hc : w.heap.wrapperAt c = some (.of D a)) :
    w.heap.convAt D a ≠ none := by
  cases hlive : w.lives c with
  | none =>
      rw [h.wrapper c hlive] at hc
      cases hc
  | some ℓ =>
      obtain ⟨a', -, hc', hs⟩ := h.owns c ℓ hlive
      obtain ⟨rfl, rfl⟩ := RatioConverter.of_inj (Option.some.inj (hc'.symm.trans hc))
      simp [hs]

/-- Another handle does not own the converter of this one. -/
lemma convAt_of_ne (h : Represents A env w) (hw : w.heap.wrapperAt c = some (.of D a)) {c' a' : ℕ}
    {D' : Direction} (hw' : w.heap.wrapperAt c' = some (.of D' a')) (hne : c' ≠ c)
    (s : Option (Converter D S K)) :
    (w.heap.setConv D a s).convAt D' a' = w.heap.convAt D' a' := by
  rcases eq_or_ne D' D with rfl | hD
  · refine Heap.convAt_setConv_of_ne ?_ _ _
    rintro rfl
    exact hne (h.unique _ _ _ _ hw' hw)
  · exact Heap.convAt_setConv_of_dir_ne hD _

/-- Freeing a converter leaves the others, each with its pair. -/
lemma owner_of_free (h : Represents A env w) {D' : Direction} {a' : ℕ}
    (hs : (w.heap.setConv D a none).convAt D' a' ≠ none) :
    (∃ c', w.heap.wrapperAt c' = some (.of D' a')) ∧ (D' = D → a' ≠ a) := by
  rcases eq_or_ne D' D with rfl | hD
  · have hne : a' ≠ a := by
      rintro rfl
      exact hs (Heap.convAt_setConv_self none)
    rw [Heap.convAt_setConv_of_ne hne] at hs
    exact ⟨h.owner D' a' hs, fun _ => hne⟩
  · rw [Heap.convAt_setConv_of_dir_ne hD] at hs
    exact ⟨h.owner D' a' hs, fun heq => absurd heq hD⟩

/-- Without live handles there is nothing in memory. -/
lemma heap_eq_empty (h : Represents A env w) (hnone : ∀ c, w.lives c = none) :
    w.heap = .empty := by
  have hwrapper : ∀ c, w.heap.wrapperAt c = none := fun c => h.wrapper c (hnone c)
  have hconv : ∀ D a, w.heap.convAt D a = none := by
    intro D a
    by_contra hs
    obtain ⟨c, hc⟩ := h.owner D a hs
    rw [hwrapper] at hc
    cases hc
  have hheap : w.heap = ⟨w.heap.wrapperAt, w.heap.convAt⟩ := rfl
  rw [hheap, Heap.empty, funext hwrapper, funext fun D => funext (hconv D)]

/-- A new handle. -/
lemma create {p : Profile} {channels : ℕ} (h : Represents A env w) (hfree : w.heap.IsFree c)
    (hfree' : w.heap.IsFree a) (hchannels : channels ≠ 0) :
    Represents A env ⟨w.heap.create D c a (.after env.k (env.dsp.table D p) channels [] 0 1),
      Function.update w.lives c (some ⟨D, p, channels, []⟩)⟩ := by
  obtain ⟨hc, hwc, -⟩ := hfree
  obtain ⟨ha, -, hsa⟩ := hfree'
  constructor <;> dsimp only [Heap.create, Heap.convAt_setWrapper]
  case null => rw [Function.update_of_ne hc.symm, h.null]
  case owns =>
    intro c' ℓ' hc'
    rcases update_eq_some hc' with ⟨rfl, ⟨⟩⟩ | ⟨hne, hc'⟩
    · exact ⟨a, ha, Heap.wrapperAt_setWrapper_self _, Heap.convAt_setConv_self _⟩
    · obtain ⟨a', ha', hw', hs'⟩ := h.owns c' ℓ' hc'
      have hne' : a' ≠ a := by
        rintro rfl
        rw [hsa] at hs'
        cases hs'
      refine ⟨a', ha', ?_, by rwa [Heap.convAt_setConv_of_ne hne']⟩
      rwa [Heap.wrapperAt_setWrapper_of_ne hne]
  case channels =>
    intro c' ℓ' hc'
    rcases update_eq_some hc' with ⟨rfl, ⟨⟩⟩ | ⟨hne, hc'⟩
    · exact hchannels
    · exact h.channels c' ℓ' hc'
  case answered =>
    intro c' ℓ' hc'
    rcases update_eq_some hc' with ⟨rfl, ⟨⟩⟩ | ⟨hne, hc'⟩
    · rfl
    · exact h.answered c' ℓ' hc'
  case wrapper =>
    intro c' hc'
    rcases update_eq_none hc' with ⟨-, ⟨⟩⟩ | ⟨hne, hc'⟩
    rw [Heap.wrapperAt_setWrapper_of_ne hne]
    exact h.wrapper c' hc'
  case owner =>
    intro D' a' hs'
    rcases eq_or_ne a' a with rfl | hne
    · have hD : D' = D := by
        by_contra hD
        rw [Heap.convAt_setConv_of_dir_ne hD, hsa] at hs'
        exact hs' rfl
      subst hD
      exact ⟨c, Heap.wrapperAt_setWrapper_self _⟩
    · rw [Heap.convAt_setConv_of_ne hne] at hs'
      obtain ⟨c', hw'⟩ := h.owner D' a' hs'
      have hne' : c' ≠ c := by
        rintro rfl
        rw [hwc] at hw'
        cases hw'
      exact ⟨c', by rwa [Heap.wrapperAt_setWrapper_of_ne hne']⟩
  case unique =>
    intro c₁ c₂ D' a' h₁ h₂
    -- no other pair points to the new converter, whose address was free
    have hnew {c' : ℕ} (hw' : w.heap.wrapperAt c' = some (.of D a)) : False :=
      h.convAt_of_wrapperAt hw' (hsa D)
    rcases update_eq_some h₁ with ⟨rfl, e₁⟩ | ⟨-, e₁⟩ <;>
      rcases update_eq_some h₂ with ⟨rfl, e₂⟩ | ⟨-, e₂⟩
    · rfl
    · obtain ⟨rfl, rfl⟩ := RatioConverter.of_inj (Option.some.inj e₁)
      exact (hnew e₂).elim
    · obtain ⟨rfl, rfl⟩ := RatioConverter.of_inj (Option.some.inj e₂)
      exact (hnew e₁).elim
    · exact h.unique c₁ c₂ D' a' e₁ e₂

variable [Zero S]

/-- A function of a live handle. -/
lemma op (h : Represents A env w) (hc : w.lives c = some ℓ) (op : Op S) :
    ∃ w', w.step A env (.op c op) = some w' ∧ Represents A env w' := by
  obtain ⟨a, ha, hw, hs⟩ := h.owns c ℓ hc
  let r := op.exec A env.k (ℓ.converter A env)
  have hstep : w.step A env (.op c op)
      = some ⟨w.heap.setConv ℓ.direction a (some r.1),
          Function.update w.lives c (some (ℓ.concat op r.2))⟩ := by
    rw [World.step, exec_op, dispatch_eq hw hs]
    simp only [Option.map_some, record, hc]
    rfl
  refine ⟨_, hstep, ?_⟩
  constructor <;> dsimp only
  case null => rw [Function.update_of_ne (h.ne_zero hc).symm, h.null]
  case owns =>
    intro c' ℓ' hc'
    rcases update_eq_some hc' with ⟨rfl, ⟨⟩⟩ | ⟨hne, hc'⟩
    · refine ⟨a, ha, hw, ?_⟩
      rw [Life.converter_concat]
      exact Heap.convAt_setConv_self _
    · obtain ⟨a', ha', hw', hs'⟩ := h.owns c' ℓ' hc'
      exact ⟨a', ha', hw', by rwa [h.convAt_of_ne hw hw' hne]⟩
  case channels =>
    intro c' ℓ' hc'
    rcases update_eq_some hc' with ⟨rfl, ⟨⟩⟩ | ⟨hne, hc'⟩
    · exact h.channels c' ℓ hc
    · exact h.channels c' ℓ' hc'
  case answered =>
    intro c' ℓ' hc'
    rcases update_eq_some hc' with ⟨rfl, ⟨⟩⟩ | ⟨hne, hc'⟩
    · rw [Life.replies_concat, Life.ops_concat, h.answered c' ℓ hc]
      exact (Op.replies_concat (ℓ.fresh env) ℓ.ops op).symm
    · exact h.answered c' ℓ' hc'
  case wrapper =>
    intro c' hc'
    rcases update_eq_none hc' with ⟨-, ⟨⟩⟩ | ⟨-, hc'⟩
    exact h.wrapper c' hc'
  case owner =>
    intro D' a' hs'
    rcases eq_or_ne D' ℓ.direction with rfl | hD
    · rcases eq_or_ne a' a with rfl | hne
      · exact ⟨c, hw⟩
      · exact h.owner _ a' (by rwa [Heap.convAt_setConv_of_ne hne] at hs')
    · exact h.owner D' a' (by rwa [Heap.convAt_setConv_of_dir_ne hD] at hs')
  case unique => exact h.unique

/-- The destruction of a live handle. -/
lemma destroy (h : Represents A env w) (hc : w.lives c = some ℓ) :
    ∃ w', w.step A env (.destroy c) = some w' ∧ Represents A env w' ∧
      w'.lives = Function.update w.lives c none := by
  obtain ⟨a, ha, hw, hs⟩ := h.owns c ℓ hc
  have hc0 := h.ne_zero hc
  have hstep : w.step A env (.destroy c)
      = some ⟨(w.heap.setConv ℓ.direction a none).setWrapper c none,
          Function.update w.lives c none⟩ := by
    simp only [World.step, ApiCall.exec, ratioDestroy, deleteWrapper_eq hc0 ha hw hs]
    rfl
  refine ⟨_, hstep, ?_, rfl⟩
  constructor <;> dsimp only [Heap.convAt_setWrapper]
  case null => rw [Function.update_of_ne hc0.symm, h.null]
  case owns =>
    intro c' ℓ' hc'
    rcases update_eq_some hc' with ⟨-, ⟨⟩⟩ | ⟨hne, hc'⟩
    obtain ⟨a', ha', hw', hs'⟩ := h.owns c' ℓ' hc'
    refine ⟨a', ha', ?_, by rwa [h.convAt_of_ne hw hw' hne]⟩
    rwa [Heap.wrapperAt_setWrapper_of_ne hne]
  case channels =>
    intro c' ℓ' hc'
    rcases update_eq_some hc' with ⟨-, ⟨⟩⟩ | ⟨hne, hc'⟩
    exact h.channels c' ℓ' hc'
  case answered =>
    intro c' ℓ' hc'
    rcases update_eq_some hc' with ⟨-, ⟨⟩⟩ | ⟨hne, hc'⟩
    exact h.answered c' ℓ' hc'
  case wrapper =>
    intro c' hc'
    rcases update_eq_none hc' with ⟨rfl, -⟩ | ⟨hne, hc'⟩
    · exact Heap.wrapperAt_setWrapper_self none
    · rw [Heap.wrapperAt_setWrapper_of_ne hne]
      exact h.wrapper c' hc'
  case owner =>
    intro D' a' hs'
    obtain ⟨⟨c', hw'⟩, hother⟩ := h.owner_of_free hs'
    refine ⟨c', ?_⟩
    -- the pair that is gone owned the converter that is gone
    have hne : c' ≠ c := by
      rintro rfl
      obtain ⟨hD, rfl⟩ := RatioConverter.of_inj (Option.some.inj (hw'.symm.trans hw))
      exact hother hD rfl
    rwa [Heap.wrapperAt_setWrapper_of_ne hne]
  case unique =>
    intro c₁ c₂ D' a' h₁ h₂
    rcases update_eq_some h₁ with ⟨-, ⟨⟩⟩ | ⟨-, h₁⟩
    rcases update_eq_some h₂ with ⟨-, ⟨⟩⟩ | ⟨-, h₂⟩
    exact h.unique c₁ c₂ D' a' h₁ h₂

end Represents

/-! ### Creation -/

section Create

variable [Zero S] {env : Env F S K} {h : Heap S K} {g : CreateGrants} {direction profile : ℤ}
  {channels c a : ℕ} {D : Direction} {p : Profile}

/-- Everything that a creation asks for is granted, with the pair at `c` and the converter at
`a`. -/
structure Creates (env : Env F S K) (g : CreateGrants) (direction profile : ℤ) (channels c a : ℕ) :
    Prop where
  valid : invalidArguments direction profile channels = false
  wrapper : g.wrapper = some c
  conv : g.conv = some a
  granted : Granted env.pl g.inner (directionOf direction) (profileOf profile) channels

/-- The new converter, where it is granted. -/
lemma newConv_ok (hpl : env.pl.Sane) (hfits : D.kPhases * p.taps D < 2 ^ env.pl.sizeBits)
    (hconv : g.conv = some a) (hg : Granted env.pl g.inner D p channels) :
    newConv env D h g p channels
      = .ok (h.setConv D a (some (.after env.k (env.dsp.table D p) channels [] 0 1)), a) := by
  rw [newConv, hconv]
  dsimp only
  rw [(converterConstruct_decided env.dsp hpl hfits g.inner).ok hg]
  rfl

/-- Otherwise an exception that the interface catches. -/
lemma newConv_throws (hpl : env.pl.Sane) (hfits : D.kPhases * p.taps D < 2 ^ env.pl.sizeBits)
    (hno : ∀ a, g.conv = some a → ¬ Granted env.pl g.inner D p channels) :
    ∃ f, f ≠ .outOfRange ∧ newConv env D h g p channels = .error f := by
  rw [newConv]
  cases hconv : g.conv with
  | none => exact ⟨.badAlloc, by decide, rfl⟩
  | some a =>
      obtain ⟨f, hf, herr⟩ :=
        (converterConstruct_decided (k := env.k) env.dsp hpl hfits g.inner).throws (hno a hconv)
      refine ⟨f, ?_, ?_⟩
      · cases hf <;> simp
      · dsimp only
        rw [herr]
        rfl

/-- A creation with valid arguments, once its pair is allocated. -/
lemma ratioCreate_eq (hvalid : invalidArguments direction profile channels = false)
    (hwrapper : g.wrapper = some c) :
    ratioCreate env h g direction profile channels
      = fillWrapper env (directionOf direction) (h.setWrapper c (some ⟨direction, 0, 0⟩)) g
          (profileOf profile) channels c ⟨direction, 0, 0⟩ := by
  simp only [ratioCreate, hvalid, hwrapper, directionOf, Bool.false_eq_true, if_false]
  split <;> rfl

/-- A creation that is granted everything leaves the two objects. -/
lemma ratioCreate_ok (hpl : env.pl.Sane) (hc : Creates env g direction profile channels c a) :
    ratioCreate env h g direction profile channels
      = some (h.create (directionOf direction) c a (.after env.k
          (env.dsp.table (directionOf direction) (profileOf profile)) channels [] 0 1), c) := by
  have hfits := profileOf_fits hpl (directionOf direction) profile
  rw [ratioCreate_eq hc.valid hc.wrapper, fillWrapper, newConv_ok hpl hfits hc.conv hc.granted]
  dsimp only
  rw [store_blank hc.valid]
  simp [Heap.create, Heap.setWrapper, Heap.setConv]

/-- Any other creation leaves the memory as it was. -/
lemma ratioCreate_fails (hpl : env.pl.Sane) (hfree : ∀ c, g.wrapper = some c → h.IsFree c)
    (hno : ∀ c a, ¬ Creates env g direction profile channels c a) :
    ratioCreate env h g direction profile channels = some (h, 0) := by
  by_cases hvalid : invalidArguments direction profile channels = false
  · cases hwrapper : g.wrapper with
    | none => simp [ratioCreate, hvalid, hwrapper]
    | some c =>
        obtain ⟨hc, hw, -⟩ := hfree c hwrapper
        have hfits := profileOf_fits hpl (directionOf direction) profile
        obtain ⟨f, hf, herr⟩ := newConv_throws (h := h.setWrapper c (some ⟨direction, 0, 0⟩)) hpl
          hfits fun a hconv hg => hno c a ⟨hvalid, hwrapper, hconv, hg⟩
        have hdelete := deleteWrapper_blank (h := h.setWrapper c (some ⟨direction, 0, 0⟩)) hc
          (Heap.wrapperAt_setWrapper_self _)
        rw [Heap.setWrapper_setWrapper_none hw] at hdelete
        rw [ratioCreate_eq hvalid hwrapper, fillWrapper, herr]
        -- the exception destroys the pair before it is caught
        cases f <;> first | exact absurd rfl hf | simp [hdelete]
  · rw [ratioCreate, if_pos (by simpa using hvalid)]

namespace Represents

variable {A : Word} {w : World S K}

/-- An allowed call keeps to defined behaviour. -/
theorem step (hw : Represents A env w) (hpl : env.pl.Sane) {call : ApiCall S}
    (hcall : call.Allowed w) : ∃ w', w.step A env call = some w' ∧ Represents A env w' := by
  cases call with
  | create g direction profile channels =>
      obtain ⟨hwrapper, hconv⟩ := hcall
      by_cases hc : ∃ c a, Creates env g direction profile channels c a
      · obtain ⟨c, a, hc⟩ := hc
        obtain ⟨hfree', -⟩ := hconv a hc.conv
        have hfree := hwrapper c hc.wrapper
        refine ⟨_, ?_, hw.create (D := directionOf direction) (p := profileOf profile) hfree hfree'
          hc.granted.channels_ne⟩
        simp only [World.step, ApiCall.exec, ratioCreate_ok hpl hc]
        exact congrArg some (congrArg (World.mk _) (if_neg hfree.1))
      · refine ⟨w, ?_, hw⟩
        rw [not_exists] at hc
        simp only [World.step, ApiCall.exec,
          ratioCreate_fails hpl hwrapper fun c a hca => hc c ⟨a, hca⟩]
        rfl
  | destroy c =>
      rcases hcall with rfl | hlive
      · refine ⟨w, ?_, hw⟩
        have hlives : Function.update w.lives 0 none = w.lives :=
          Function.update_eq_self_iff.2 hw.null.symm
        change some (World.mk w.heap (Function.update w.lives 0 none)) = some w
        rw [hlives]
      · obtain ⟨ℓ, hℓ⟩ := Option.isSome_iff_exists.1 hlive
        obtain ⟨w', hstep, hw', -⟩ := hw.destroy hℓ
        exact ⟨w', hstep, hw'⟩
  | op c op =>
      obtain ⟨ℓ, hℓ⟩ := Option.isSome_iff_exists.1 hcall
      exact hw.op hℓ op

/-- So does a client that makes only allowed calls. -/
theorem run (hw : Represents A env w) (hpl : env.pl.Sane) {calls : List (ApiCall S)}
    (hcalls : w.Valid A env calls) :
    ∃ w', w.run A env calls = some w' ∧ Represents A env w' := by
  induction calls generalizing w with
  | nil => exact ⟨w, rfl, hw⟩
  | cons call calls ih =>
      obtain ⟨hcall, hrest⟩ := hcalls
      obtain ⟨w₁, hstep, hw₁⟩ := hw.step hpl hcall
      obtain ⟨w₂, hrun, hw₂⟩ := ih hw₁ (hrest w₁ hstep)
      exact ⟨w₂, by rw [World.run, hstep]; exact hrun, hw₂⟩

/-- Destroying all live handles, in any order. -/
lemma destroy_all (hw : Represents A env w) {cs : List ℕ} (hnodup : cs.Nodup)
    (hcs : ∀ c, c ∈ cs ↔ w.lives c ≠ none) :
    ∃ w', w.run A env (cs.map .destroy) = some w' ∧ w'.heap = .empty := by
  induction cs generalizing w with
  | nil =>
      refine ⟨w, rfl, hw.heap_eq_empty fun c => ?_⟩
      by_contra hc
      simpa using (hcs c).2 hc
  | cons c cs ih =>
      obtain ⟨hc, hnodup⟩ := List.nodup_cons.1 hnodup
      obtain ⟨ℓ, hℓ⟩ := Option.ne_none_iff_exists'.1 ((hcs c).1 List.mem_cons_self)
      obtain ⟨w₁, hstep, hw₁, hlives⟩ := hw.destroy hℓ
      have hrest : ∀ d, d ∈ cs ↔ w₁.lives d ≠ none := by
        intro d
        rw [hlives]
        rcases eq_or_ne d c with rfl | hne
        · simp [hc]
        · rw [Function.update_of_ne hne, ← hcs d, List.mem_cons, or_iff_right hne]
      obtain ⟨w₂, hrun, hempty⟩ := ih hw₁ hnodup hrest
      refine ⟨w₂, ?_, hempty⟩
      rw [List.map_cons, World.run, hstep]
      exact hrun

end Represents

end Create

end Represents

/-! ### A client -/

/-- A 64-bit platform, with box filters. -/
def boxEnv : Env ℚ ℚ ℚ where
  pl := ⟨⟨64, 2 ^ 60 - 1, 2 ^ 61 - 1⟩, (2 ^ 63 - 1) / 24, 2 ^ 61 - 1⟩
  k := .exact ℚ
  dsp := .box

lemma boxEnv_sane : boxEnv.pl.Sane := ⟨by decide, by decide⟩

/-- An allocator that grants everything, with the pair at 16 and the converter at 32. -/
def boxGrants : CreateGrants :=
  ⟨some 16, some 32, ⟨⟨true, true, true⟩, true, true, fun _ => true⟩⟩

/-- A client that creates a stereo converter and asks it for a count. -/
def boxClient : List (ApiCall ℚ) := [.create boxGrants 0 0 2, .op 16 (.outputsFor 7)]

lemma boxGrants_creates : Creates boxEnv boxGrants 0 0 2 16 32 where
  valid := by decide
  wrapper := rfl
  conv := rfl
  granted :=
    { table := by decide
      profile := by decide
      prototype := by decide
      row := by decide
      hists := by decide
      scratch := by decide
      channels_ne := by decide
      history := ⟨by decide, fun _ _ => rfl⟩ }

lemma boxClient_valid : World.empty.Valid (.bits 64) boxEnv boxClient := by
  refine ⟨⟨?_, ?_⟩, ?_⟩
  · rintro c ⟨⟩
    exact ⟨by decide, rfl, fun _ => rfl⟩
  · rintro a ⟨⟩
    exact ⟨⟨by decide, rfl, fun _ => rfl⟩, by decide⟩
  · intro w hstep
    simp only [World.step, ApiCall.exec, ratioCreate_ok boxEnv_sane boxGrants_creates] at hstep
    obtain rfl := Option.some.inj hstep
    exact ⟨rfl, fun _ _ => trivial⟩

/-! ### What a client sees -/

section Client

variable [Zero F] [One F] [Add F] [Mul F] [Div F] [Zero K] [Zero S]

/-- The memory of the interface holds one pair and one converter for each live handle and
nothing else, whatever was refused on the way; and when the live handles are destroyed, in any
order, it is empty. -/
theorem handles_own_memory {A : Word} {env : Env F S K} (hpl : env.pl.Sane)
    {calls : List (ApiCall S)} (hcalls : World.empty.Valid A env calls) :
    ∃ w, World.empty.run A env calls = some w ∧
      (∀ c, w.heap.wrapperAt c ≠ none ↔ w.lives c ≠ none) ∧
      (∀ D a, w.heap.convAt D a ≠ none ↔ ∃ c, w.heap.wrapperAt c = some (.of D a)) ∧
      (∀ c c' D a, w.heap.wrapperAt c = some (.of D a) → w.heap.wrapperAt c' = some (.of D a) →
        c = c') ∧
      ∀ cs : List ℕ, cs.Nodup → (∀ c, c ∈ cs ↔ w.lives c ≠ none) →
        ∃ w', w.run A env (cs.map .destroy) = some w' ∧ w'.heap = .empty := by
  obtain ⟨w, hrun, hw⟩ := Represents.empty.run hpl hcalls
  refine ⟨w, hrun, ?_, ?_, hw.unique, fun cs hnodup hcs => hw.destroy_all hnodup hcs⟩
  · intro c
    constructor
    · exact fun hwc hc => hwc (hw.wrapper c hc)
    · intro hc
      obtain ⟨ℓ, hℓ⟩ := Option.ne_none_iff_exists'.1 hc
      obtain ⟨a, -, hwc, -⟩ := hw.owns c ℓ hℓ
      simp [hwc]
  · intro D a
    exact ⟨hw.owner D a, fun ⟨c, hc⟩ => hw.convAt_of_wrapperAt hc⟩

theorem handles_own_memory_box :
    ∃ w, World.empty.run (.bits 64) boxEnv boxClient = some w ∧
      ∀ c, w.heap.wrapperAt c ≠ none ↔ w.lives c ≠ none := by
  obtain ⟨w, hrun, hwrapper, -⟩ := handles_own_memory boxEnv_sane boxClient_valid
  exact ⟨w, hrun, hwrapper⟩

/-- A creation, in any state that a client can reach.  It returns a handle exactly where its
arguments are valid and everything it asks for is granted; the handle is then none of those in
use, with a fresh converter of the profile and direction named.  Otherwise it returns null and
leaves the memory as it was, wherever it failed. -/
theorem ratio_create_spec {A : Word} {env : Env F S K} (hpl : env.pl.Sane)
    {calls : List (ApiCall S)} (hcalls : World.empty.Valid A env calls) {w : World S K}
    (hrun : World.empty.run A env calls = some w) {g : CreateGrants} {direction profile : ℤ}
    {channels : ℕ} (hallowed : (ApiCall.create g direction profile channels).Allowed w) :
    ∃ h c, ratioCreate env w.heap g direction profile channels = some (h, c) ∧
      (c ≠ 0 ↔ ∃ c a, Creates env g direction profile channels c a) ∧
      (c = 0 → h = w.heap) ∧
      (c ≠ 0 → w.lives c = none ∧ ∃ a s,
        Converter.make env.k (env.dsp.table (directionOf direction) (profileOf profile)) channels
          = .ok s ∧ h = w.heap.create (directionOf direction) c a s) := by
  obtain ⟨w', hrun', hw⟩ := Represents.empty.run hpl hcalls
  obtain rfl : w' = w := Option.some.inj (hrun'.symm.trans hrun)
  obtain ⟨hwrapper, -⟩ := hallowed
  by_cases hc : ∃ c a, Creates env g direction profile channels c a
  · obtain ⟨c, a, hca⟩ := hc
    have hfree := hwrapper c hca.wrapper
    refine ⟨_, c, ratioCreate_ok hpl hca, iff_of_true hfree.1 ⟨c, a, hca⟩,
      fun h0 => absurd h0 hfree.1, fun _ => ⟨?_, a, _, Converter.make_ok hca.granted.channels_ne,
        rfl⟩⟩
    by_contra hlive
    obtain ⟨ℓ, hℓ⟩ := Option.ne_none_iff_exists'.1 hlive
    obtain ⟨b, -, hwc, -⟩ := hw.owns c ℓ hℓ
    rw [hfree.2.1] at hwc
    cases hwc
  · refine ⟨w'.heap, 0, ratioCreate_fails hpl hwrapper ?_, iff_of_false (by simp) hc,
      fun _ => rfl, fun h0 => absurd rfl h0⟩
    exact fun c a hca => hc ⟨c, a, hca⟩

/-- The first creation of the client. -/
theorem ratio_create_spec_box :
    ∃ h c, ratioCreate boxEnv World.empty.heap boxGrants 0 0 2 = some (h, c) ∧
      (c ≠ 0 ↔ ∃ c a, Creates boxEnv boxGrants 0 0 2 c a) := by
  have hallowed : (ApiCall.create boxGrants 0 0 2).Allowed (World.empty : World ℚ ℚ) :=
    boxClient_valid.1
  have hvalid : World.empty.Valid (.bits 64) boxEnv ([] : List (ApiCall ℚ)) := trivial
  obtain ⟨h, c, hcreate, hiff, -⟩ := ratio_create_spec boxEnv_sane hvalid rfl hallowed
  exact ⟨h, c, hcreate, hiff⟩

end Client

end RatioTap.CApi

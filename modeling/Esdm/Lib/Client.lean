import Mathlib.Logic.Function.Basic

/-!
# Clients of a shared store

A client is a program that asks a shared store and goes on with the answer.  Many clients, each with
data of its own, call such a program again and again; their requests interleave in any order, and
the code between two requests is part of the step that brings the answer.  A protocol says what a
client may ask next; what a program may do at all is shown once, over the program, and holds for
each client of a pool in every run.
-/

/-- A program that asks requests and ends with a result. -/
inductive Client {Req : Type} (Resp : Req → Type) (α : Type) where
  | done (a : α)
  | ask (q : Req) (next : Resp q → Client Resp α)

namespace Client

variable {Req : Type} {Resp : Req → Type} {M α β : Type}

def bind : Client Resp α → (α → Client Resp β) → Client Resp β
  | done a, f => f a
  | ask q next, f => ask q fun r => (next r).bind f

instance : Monad (Client Resp) where
  pure := done
  bind := bind

/-- Ask once, for the answer. -/
def request (q : Req) : Client Resp (Resp q) := ask q done

/-- Run a program to its end on a store that answers it. -/
def eval {S : Type} (answer : S → (q : Req) → Resp q × S) : Client Resp α → S → α × S
  | done a, s => (a, s)
  | ask q next, s => eval answer (next (answer s q).1) (answer s q).2

section Eval

variable {S : Type} {answer : S → (q : Req) → Resp q × S}

@[simp] theorem eval_pure (a : α) (s : S) : eval answer (pure a) s = (a, s) := rfl

@[simp] theorem eval_request_bind (q : Req) (f : Resp q → Client Resp β) (s : S) :
    eval answer (request q >>= f) s = eval answer (f (answer s q).1) (answer s q).2 := rfl

theorem eval_bind (x : Client Resp α) (f : α → Client Resp β) (s : S) :
    eval answer (x >>= f) s = eval answer (f (eval answer x s).1) (eval answer x s).2 := by
  induction x generalizing s with
  | done a => rfl
  | ask q next ih => exact ih (answer s q).1 (answer s q).2

end Eval

/-- In a mode `m`, which requests are allowed and which mode each answer leads to. -/
abbrev Protocol (M : Type) (Resp : Req → Type) := M → (q : Req) → (Resp q → M) → Prop

/-- From mode `m` on all requests are allowed, whatever the answers, and the result is right for the
mode that is reached. -/
def Follows (P : Protocol M Resp) (post : M → α → Prop) : M → Client Resp α → Prop
  | m, done a => post m a
  | m, ask q next => ∃ after, P m q after ∧ ∀ r, Follows P post (after r) (next r)

section Follows

variable {P : Protocol M Resp} {mid : M → α → Prop} {post : M → β → Prop}

theorem Follows.bind {x : Client Resp α} {f : α → Client Resp β} {m : M}
    (hx : Follows P mid m x) (hf : ∀ m a, mid m a → Follows P post m (f a)) :
    Follows P post m (x >>= f) := by
  induction x generalizing m with
  | done a => exact hf m a hx
  | ask q next ih =>
    obtain ⟨after, hafter, hnext⟩ := hx
    exact ⟨after, hafter, fun r => ih r (hnext r)⟩

theorem Follows.request {q : Req} {f : Resp q → Client Resp β} {m : M} {after : Resp q → M}
    (hafter : P m q after) (hf : ∀ r, Follows P post (after r) (f r)) :
    Follows P post m (Client.request q >>= f) :=
  ⟨after, hafter, hf⟩

end Follows

/-- A client with data `D` is between two calls, or waits for an answer. -/
inductive Phase {Req : Type} (Resp : Req → Type) (ρ D : Type) where
  | idle (d : D)
  | waiting (q : Req) (next : Resp q → Client Resp (ρ × D))

/-- The phase of a client that has come to the given point of its call. -/
def phase {ρ D : Type} : Client Resp (ρ × D) → Phase Resp ρ D
  | done (_, d) => .idle d
  | ask q next => .waiting q next

/-- What the call returns, if it is at its end. -/
def returned {ρ D : Type} : Client Resp (ρ × D) → Option ρ
  | done (a, _) => some a
  | ask _ _ => none

/-- Clients and the store they share. -/
structure Pool (ι S : Type) {Req : Type} (Resp : Req → Type) (ρ D : Type) where
  store : S
  clients : ι → Phase Resp ρ D

namespace Pool

variable {ι S ρ D : Type} [DecidableEq ι] (serve : S → (q : Req) → Resp q → S → Prop)
  (call : D → Client Resp (ρ × D))

/-- One client calls, or gets its answer; with what its call returns by that. -/
inductive Step : Pool ι S Resp ρ D → Option ρ → Pool ι S Resp ρ D → Prop
  | call {p : Pool ι S Resp ρ D} {i : ι} {d : D} (h : p.clients i = .idle d) :
      Step p (returned (call d)) ⟨p.store, Function.update p.clients i (phase (call d))⟩
  | answer {p : Pool ι S Resp ρ D} {i : ι} {q : Req} {next : Resp q → Client Resp (ρ × D)}
      {r : Resp q} {s : S} (h : p.clients i = .waiting q next) (hs : serve p.store q r s) :
      Step p (returned (next r)) ⟨s, Function.update p.clients i (phase (next r))⟩

/-- Steps of any clients, with the results of the calls in the order in which they return. -/
inductive Run : Pool ι S Resp ρ D → List ρ → Pool ι S Resp ρ D → Prop
  | nil {p : Pool ι S Resp ρ D} : Run p [] p
  | snoc {p p' p'' : Pool ι S Resp ρ D} {rs : List ρ} {r : Option ρ} (h : Run p rs p')
      (hs : Step serve call p' r p'') : Run p (rs ++ r.toList) p''

/-- Each client that waits follows the protocol. -/
def Follows (P : Protocol M Resp) (post : M → ρ × D → Prop) (p : Pool ι S Resp ρ D) : Prop :=
  ∀ i q next, p.clients i = .waiting q next → ∃ m, Client.Follows P post m (ask q next)

variable {serve call} {P : Protocol M Resp} {post : M → ρ × D → Prop} {m₀ : M}
  {p p' : Pool ι S Resp ρ D}

theorem Follows.update {c : Client Resp (ρ × D)} {m : M} {s : S} (hp : p.Follows P post)
    (hc : Client.Follows P post m c) (i : ι) :
    Follows P post ⟨s, Function.update p.clients i (phase c)⟩ := by
  intro j q next hj
  change Function.update p.clients i (phase c) j = .waiting q next at hj
  by_cases hij : j = i
  · subst hij
    rw [Function.update_self] at hj
    rcases c with ⟨a, d⟩ | ⟨q', next'⟩
    · cases hj
    · cases hj
      exact ⟨m, hc⟩
  · rw [Function.update_of_ne hij] at hj
    exact hp j q next hj

theorem Step.follows {r : Option ρ} (h : Step serve call p r p') (hp : p.Follows P post)
    (hcall : ∀ d, Client.Follows P post m₀ (call d)) : p'.Follows P post := by
  rcases h with ⟨hi⟩ | ⟨hi, hs⟩
  · exact hp.update (hcall _) _
  · obtain ⟨m, after, -, hnext⟩ := hp _ _ _ hi
    exact hp.update (hnext _) _

/-- In a pool that follows the protocol a step leaves the store alone and begins a call, or it is
the answer to an allowed request.  The call then returns a right result, or asks what is allowed. -/
theorem Step.spec {r : Option ρ} (h : Step serve call p r p') (hp : p.Follows P post)
    (hcall : ∀ d, Client.Follows P post m₀ (call d)) :
    ∃ m, ((m = m₀ ∧ p'.store = p.store)
        ∨ ∃ m₁ q after a, P m₁ q after ∧ serve p.store q a p'.store ∧ m = after a)
      ∧ ((∃ a d, r = some a ∧ post m (a, d)) ∨ (r = none ∧ ∃ q after, P m q after)) := by
  -- the two kinds of steps come to a point of the program that follows the protocol
  have key : ∀ m (c : Client Resp (ρ × D)), Client.Follows P post m c →
      (∃ a d, returned c = some a ∧ post m (a, d))
        ∨ (returned c = none ∧ ∃ q after, P m q after) := by
    intro m c hc
    rcases c with ⟨a, d⟩ | ⟨q, next⟩
    · exact .inl ⟨a, d, rfl, hc⟩
    · obtain ⟨after, hafter, -⟩ := hc
      exact .inr ⟨rfl, q, after, hafter⟩
  rcases h with ⟨hi⟩ | ⟨hi, hs⟩
  · exact ⟨m₀, .inl ⟨rfl, rfl⟩, key _ _ (hcall _)⟩
  · obtain ⟨m, after, hafter, hnext⟩ := hp _ _ _ hi
    exact ⟨after _, .inr ⟨m, _, after, _, hafter, hs, rfl⟩, key _ _ (hnext _)⟩

end Pool

end Client

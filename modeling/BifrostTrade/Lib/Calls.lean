import BifrostTrade.Lib.Runs
import Mathlib.Data.List.Basic

/-!
# Programs of calls

A program is a tree of calls to a server it shares with other programs: after each call it goes on
with the reply, or with the fact that there was none.  Programs run alone (`exec`) or interleaved
call by call in a pool (`Pool.step`).

What a program knows from its own calls and replies is tracked beside it.  A `Protocol` says which
calls are allowed with what is known and what a call can make known; `Follows` says that a program
keeps to it, whatever the replies, and is proved along the program's own structure.  `Pool.Ok.step`
then carries an invariant of the server and of what the programs know through every interleaving.
-/

namespace Calls

/-! ## Programs -/

/-- A program with calls `c`, whose replies are of type `R c`; no reply is an exception. -/
inductive Program (C : Type) (R : C → Type) (α : Type) where
  | ret (a : α)
  | call (c : C) (next : Option (R c) → Program C R α)

variable {C : Type} {R : C → Type} {α β γ σ ω : Type}

namespace Program

/-- One program and then another on what it returns. -/
def bind : Program C R α → (α → Program C R β) → Program C R β
  | ret a, f => f a
  | call c next, f => call c fun r => (next r).bind f

instance : Monad (Program C R) where
  pure := ret
  bind := bind

@[simp] theorem pure_eq (a : α) : (pure a : Program C R α) = ret a := rfl

@[simp] theorem ret_bind (a : α) (f : α → Program C R β) : (ret a >>= f) = f a := rfl

@[simp] theorem call_bind (c : C) (next : Option (R c) → Program C R α) (f : α → Program C R β) :
    (call c next >>= f) = call c fun r => next r >>= f := rfl

/-- What a program that has no more calls returns. -/
def result : Program C R α → Option α
  | ret a => some a
  | call .. => none

theorem eq_ret_of_result {p : Program C R α} {a : α} (h : p.result = some a) : p = ret a := by
  cases p with
  | ret b => rw [Option.some.inj h]
  | call c next => cases h

/-- One call and its reply. -/
def ask (c : C) : Program C R (Option (R c)) := call c ret

@[simp] theorem ask_bind (c : C) (f : Option (R c) → Program C R β) :
    (ask c >>= f) = call c f := rfl

end Program

/-! ## What a program may call and learn -/

/-- The calls allowed with what is known, and what can be known after a call with its reply. -/
structure Protocol (C : Type) (R : C → Type) (γ : Type) where
  allowed : γ → C → Prop
  reply : γ → (c : C) → γ → Option (R c) → Prop

/-- The program keeps to the protocol from what is known, and a result is as `result` says. -/
def Follows (pr : Protocol C R γ) (result : γ → α → Prop) : γ → Program C R α → Prop
  | g, .ret a => result g a
  | g, .call c next => pr.allowed g c ∧ ∀ g' r, pr.reply g c g' r → Follows pr result g' (next r)

variable {pr : Protocol C R γ} {result : γ → α → Prop}

@[simp] theorem follows_ret {g : γ} {a : α} :
    Follows pr result g (.ret a) ↔ result g a := Iff.rfl

@[simp] theorem follows_call {g : γ} {c : C} {next : Option (R c) → Program C R α} :
    Follows pr result g (.call c next) ↔
      pr.allowed g c ∧ ∀ g' r, pr.reply g c g' r → Follows pr result g' (next r) := Iff.rfl

theorem Follows.imp {result' : γ → α → Prop} (h : ∀ g a, result g a → result' g a) {g : γ}
    {p : Program C R α} (hp : Follows pr result g p) : Follows pr result' g p := by
  induction p generalizing g with
  | ret a => exact h g a hp
  | call c next ih => exact ⟨hp.1, fun g' r hr => ih r (hp.2 g' r hr)⟩

/-- A program and then what it goes on with. -/
theorem Follows.bind {mid : γ → α → Prop} {result : γ → β → Prop} {g : γ} {p : Program C R α}
    {f : α → Program C R β} (hp : Follows pr mid g p)
    (hf : ∀ g a, mid g a → Follows pr result g (f a)) : Follows pr result g (p >>= f) := by
  induction p generalizing g with
  | ret a => exact hf g a hp
  | call c next ih => exact ⟨hp.1, fun g' r hr => ih r (hp.2 g' r hr)⟩

/-! ## The calls a program makes -/

/-- Every call the program can make is one of `P`. -/
inductive Uses (P : C → Prop) : Program C R α → Prop where
  | ret (a : α) : Uses P (.ret a)
  | call {c : C} {next : Option (R c) → Program C R α} (hc : P c) (hnext : ∀ r, Uses P (next r)) :
      Uses P (.call c next)

namespace Uses

variable {P Q : C → Prop}

theorem pure (a : α) : Uses P (pure a : Program C R α) := ret a

theorem bind {p : Program C R α} {f : α → Program C R β} (hp : Uses P p)
    (hf : ∀ a, Uses P (f a)) : Uses P (p >>= f) := by
  induction hp with
  | ret a => exact hf a
  | call hc _ ih => exact call hc ih

theorem ask {c : C} {f : Option (R c) → Program C R β} (hc : P c) (hf : ∀ r, Uses P (f r)) :
    Uses P (Program.ask c >>= f) :=
  call hc hf

theorem ite {b : Prop} [Decidable b] {p q : Program C R α} (hp : Uses P p) (hq : Uses P q) :
    Uses P (if b then p else q) := by
  split_ifs
  exacts [hp, hq]

theorem imp {p : Program C R α} (h : ∀ c, P c → Q c) (hp : Uses P p) : Uses Q p := by
  induction hp with
  | ret a => exact ret a
  | call hc _ ih => exact call (h _ hc) ih

/-- Calls that are allowed with what is known, and keep it so, are a program of the protocol. -/
theorem follows {p : Program C R α} (hp : Uses P p) {K : γ → Prop}
    (h : ∀ g c, K g → P c → pr.allowed g c ∧ ∀ g' r, pr.reply g c g' r → K g') {g : γ} (hg : K g) :
    Follows pr (fun g' _ => K g') g p := by
  induction hp generalizing g with
  | ret a => exact hg
  | call hc _ ih =>
    obtain ⟨hallowed, hkeep⟩ := h g _ hg hc
    exact ⟨hallowed, fun g' r hr => ih r (hkeep g' r hr)⟩

end Uses

/-! ## One program alone -/

section Exec

variable (serve : γ → ω → σ → (c : C) → σ × γ × Option (R c))

/-- The program run with one choice of the server for each call; it stops where these run out. -/
def exec : Program C R α → γ → σ → List ω → σ × γ × Option α
  | .ret a, g, s, _ => (s, g, some a)
  | .call _ _, g, s, [] => (s, g, none)
  | .call c next, g, s, w :: ws =>
      let r := serve g w s c
      exec (next r.2.2) r.2.1 r.1 ws

/-- The program run to its end, with the same choice for every call. -/
def complete (w : ω) : Program C R α → γ → σ → σ × γ × α
  | .ret a, g, s => (s, g, a)
  | .call c next, g, s =>
      let r := serve g w s c
      complete w (next r.2.2) r.2.1 r.1

variable {serve}

@[simp] theorem exec_ret (a : α) (g : γ) (s : σ) (ws : List ω) :
    exec serve (.ret a : Program C R α) g s ws = (s, g, some a) := by
  cases ws <;> rfl

theorem complete_bind (w : ω) (p : Program C R α) (f : α → Program C R β) (g : γ) (s : σ) :
    complete serve w (p >>= f) g s =
      complete serve w (f (complete serve w p g s).2.2) (complete serve w p g s).2.1
        (complete serve w p g s).1 := by
  induction p generalizing g s with
  | ret a => rfl
  | call c next ih => exact ih _ _ _

/-- Calls that keep an invariant keep it to the end of the program. -/
theorem Uses.complete_invariant {P : C → Prop} (Inv : σ → γ → Prop) {w : ω}
    (hcall : ∀ s g c, Inv s g → P c → Inv (serve g w s c).1 (serve g w s c).2.1)
    {p : Program C R α} (hp : Uses P p) {g : γ} {s : σ} (h : Inv s g) :
    Inv (complete serve w p g s).1 (complete serve w p g s).2.1 := by
  induction hp generalizing g s with
  | ret a => exact h
  | call hc _ ih => exact ih _ (hcall s g _ h hc)

theorem exec_map (f : α → β) (p : Program C R α) (g : γ) (s : σ) (ws : List ω) :
    exec serve (f <$> p) g s ws =
      ((exec serve p g s ws).1, (exec serve p g s ws).2.1, (exec serve p g s ws).2.2.map f) := by
  induction p generalizing g s ws with
  | ret a =>
    show exec serve (.ret (f a)) g s ws = _
    rw [exec_ret, exec_ret]
    rfl
  | call c next ih =>
    cases ws with
    | nil => rfl
    | cons w ws => exact ih _ _ _ _

variable (serve) in
/-- The calls that the program makes meet a condition on the server, on what is known before the
call, and on the choice. -/
def Meets (P : σ → γ → ω → C → Prop) : Program C R α → γ → σ → List ω → Prop
  | .ret _, _, _, _ => True
  | .call _ _, _, _, [] => True
  | .call c next, g, s, w :: ws =>
      P s g w c ∧ Meets P (next (serve g w s c).2.2) (serve g w s c).2.1 (serve g w s c).1 ws

instance decidableMeets {P : σ → γ → ω → C → Prop} [∀ s g w c, Decidable (P s g w c)] :
    (p : Program C R α) → (g : γ) → (s : σ) → (ws : List ω) → Decidable (Meets serve P p g s ws)
  | .ret _, _, _, _ => isTrue trivial
  | .call _ _, _, _, [] => isTrue trivial
  | .call c next, g, s, w :: ws =>
      haveI : Decidable (Meets serve P (next (serve g w s c).2.2) (serve g w s c).2.1
        (serve g w s c).1 ws) := decidableMeets _ _ _ _
      inferInstanceAs (Decidable (P s g w c ∧ Meets serve P (next (serve g w s c).2.2)
        (serve g w s c).2.1 (serve g w s c).1 ws))

theorem meets_true (p : Program C R α) (g : γ) (s : σ) (ws : List ω) :
    Meets serve (fun _ _ _ _ => True) p g s ws := by
  induction p generalizing g s ws with
  | ret a => trivial
  | call c next ih =>
    cases ws with
    | nil => trivial
    | cons w ws => exact ⟨trivial, ih _ _ _ _⟩

/-- Alone, too, a program keeps an invariant that every allowed call that meets the condition
keeps. -/
theorem Meets.exec_invariant {P : σ → γ → ω → C → Prop} (Inv : σ → γ → Prop)
    (hcall : ∀ s g w c, Inv s g → pr.allowed g c → P s g w c →
      pr.reply g c (serve g w s c).2.1 (serve g w s c).2.2 ∧
        Inv (serve g w s c).1 (serve g w s c).2.1)
    {p : Program C R α} {g : γ} {s : σ} {ws : List ω} (hmeets : Meets serve P p g s ws)
    (hp : Follows pr result g p) (hinv : Inv s g) :
    Inv (exec serve p g s ws).1 (exec serve p g s ws).2.1 ∧
      ∀ a ∈ (exec serve p g s ws).2.2, result (exec serve p g s ws).2.1 a := by
  induction p generalizing g s ws with
  | ret a =>
    rw [exec_ret]
    exact ⟨hinv, fun b hb => Option.some.inj hb ▸ hp⟩
  | call c next ih =>
    cases ws with
    | nil => exact ⟨hinv, fun b hb => by cases hb⟩
    | cons w ws =>
      obtain ⟨hreply, hinv'⟩ := hcall s g w c hinv hp.1 hmeets.1
      exact ih _ hmeets.2 (hp.2 _ _ hreply) hinv'

theorem exec_invariant (Inv : σ → γ → Prop)
    (hcall : ∀ s g w c, Inv s g → pr.allowed g c →
      pr.reply g c (serve g w s c).2.1 (serve g w s c).2.2 ∧
        Inv (serve g w s c).1 (serve g w s c).2.1)
    {p : Program C R α} {g : γ} {s : σ} (hp : Follows pr result g p) (hinv : Inv s g)
    (ws : List ω) :
    Inv (exec serve p g s ws).1 (exec serve p g s ws).2.1 ∧
      ∀ a ∈ (exec serve p g s ws).2.2, result (exec serve p g s ws).2.1 a :=
  (meets_true p g s ws).exec_invariant Inv (fun s g w c h ha _ => hcall s g w c h ha) hp hinv

end Exec

/-! ## Calls that fail -/

/-- A call is answered, or it is executed and the answer is lost, or it is not executed. -/
inductive Delivery where
  | answered
  | replyLost
  | notExecuted
  deriving DecidableEq

/-- The server after a call of a state `s`, and the reply, when executing it gives `r`. -/
def Delivery.outcome {ρ : Type} (w : Delivery) (s : σ) (r : σ × Option ρ) : σ × Option ρ :=
  match w with
  | answered => r
  | replyLost => (r.1, none)
  | notExecuted => (s, none)

/-! ## Programs interleaved -/

/-- A running program and what it knows. -/
structure Thread (C : Type) (R : C → Type) (γ α : Type) where
  known : γ
  program : Program C R α

/-- The server's state and the programs started so far. -/
structure Pool (C : Type) (R : C → Type) (γ σ α : Type) where
  shared : σ
  threads : List (Thread C R γ α)

/-- A program starts, one makes its next call, or something happens at the server. -/
inductive Event (ω ε β : Type) where
  | start (b : β)
  | step (i : ℕ) (w : ω)
  | env (e : ε)

/-- The programs that can start, with what each knows at first, and the server. -/
structure System (C : Type) (R : C → Type) (γ σ α ω ε β : Type) where
  program : β → Program C R α
  init : β → γ
  serve : γ → ω → σ → (c : C) → σ × γ × Option (R c)
  env : σ → ε → σ

/-- A condition on the next call of a program. -/
def Thread.Makes (P : γ → C → Prop) : Thread C R γ α → Prop
  | ⟨g, .call c _⟩ => P g c
  | ⟨_, .ret _⟩ => True

instance {P : γ → C → Prop} [∀ g c, Decidable (P g c)] :
    (t : Thread C R γ α) → Decidable (t.Makes P)
  | ⟨g, .call c _⟩ => inferInstanceAs (Decidable (P g c))
  | ⟨_, .ret _⟩ => isTrue trivial

namespace Pool

variable {ε : Type} (sys : System C R γ σ α ω ε β)

/-- The pool after an event: a thread starts, the world moves, or a thread takes its next call. -/
def step (pool : Pool C R γ σ α) : Event ω ε β → Pool C R γ σ α
  | .start b => { pool with threads := pool.threads ++ [⟨sys.init b, sys.program b⟩] }
  | .env e => { pool with shared := sys.env pool.shared e }
  | .step i w =>
      match pool.threads[i]? with
      | some ⟨g, .call c next⟩ =>
          let r := sys.serve g w pool.shared c
          { shared := r.1, threads := pool.threads.set i ⟨r.2.1, next r.2.2⟩ }
      | _ => pool

/-- What the programs know. -/
def known (pool : Pool C R γ σ α) : List γ := pool.threads.map Thread.known

/-- A condition on the call an event makes: on the state of the server, on what all programs and
the calling one know, and on the server's choice. -/
def CallMeets (P : σ → List γ → γ → ω → C → Prop) (pool : Pool C R γ σ α) :
    Event ω ε β → Prop
  | .step i w => ∀ t ∈ pool.threads[i]?, t.Makes fun g c => P pool.shared pool.known g w c
  | _ => True

instance {P : σ → List γ → γ → ω → C → Prop} [∀ s gs g w c, Decidable (P s gs g w c)]
    (pool : Pool C R γ σ α) : (e : Event ω ε β) → Decidable (pool.CallMeets P e)
  | .step i _ => inferInstanceAs (Decidable (∀ t ∈ pool.threads[i]?, _))
  | .start _ => isTrue trivial
  | .env _ => isTrue trivial

/-- Every run meets the condition that says nothing. -/
theorem along_true {sys : System C R γ σ α ω ε β} {pool : Pool C R γ σ α}
    {evs : List (Event ω ε β)} :
    Runs.Along (Pool.step sys) pool
      (fun _ pool e => pool.CallMeets (fun _ _ _ _ _ => True) e) evs := by
  intro pre e post _
  cases e with
  | step i w =>
    intro t _
    obtain ⟨g, p⟩ := t
    cases p <;> trivial
  | _ => trivial

/-- Every program keeps to the protocol, and the invariant holds. -/
structure Ok (pr : Protocol C R γ) (result : γ → α → Prop) (Inv : σ → List γ → Prop)
    (pool : Pool C R γ σ α) : Prop where
  follows : ∀ t ∈ pool.threads, Follows pr result t.known t.program
  inv : Inv pool.shared pool.known

variable {sys} {Inv : σ → List γ → Prop} {pool : Pool C R γ σ α}

/-- A step keeps the invariant where starting a program, what happens at the server, and every
allowed call that meets the condition keep it. -/
theorem Ok.step {P : σ → List γ → γ → ω → C → Prop}
    (hprogram : ∀ b, Follows pr result (sys.init b) (sys.program b))
    (hstart : ∀ s gs b, Inv s gs → Inv s (gs ++ [sys.init b]))
    (henv : ∀ s gs e, Inv s gs → Inv (sys.env s e) gs)
    (hcall : ∀ s gs i g w c, Inv s gs → gs[i]? = some g → pr.allowed g c → P s gs g w c →
      pr.reply g c (sys.serve g w s c).2.1 (sys.serve g w s c).2.2 ∧
        Inv (sys.serve g w s c).1 (gs.set i (sys.serve g w s c).2.1))
    (h : pool.Ok pr result Inv) {e : Event ω ε β} (he : pool.CallMeets P e) :
    (pool.step sys e).Ok pr result Inv := by
  cases e with
  | start b =>
    refine ⟨fun t ht => ?_, ?_⟩
    · rcases List.mem_append.1 ht with ht | ht
      · exact h.follows t ht
      · obtain rfl := List.mem_singleton.1 ht
        exact hprogram b
    · rw [known, Pool.step, List.map_append]
      exact hstart _ _ b h.inv
  | env e => exact ⟨h.follows, henv _ _ e h.inv⟩
  | step i w =>
    cases hi : pool.threads[i]? with
    | none => simpa [Pool.step, hi] using h
    | some t =>
      obtain ⟨g, p⟩ := t
      cases p with
      | ret a => simpa [Pool.step, hi] using h
      | call c next =>
        have hmem : ⟨g, .call c next⟩ ∈ pool.threads := List.mem_of_getElem? hi
        have hfollows := h.follows _ hmem
        have hg : pool.known[i]? = some g := by simp [known, hi]
        obtain ⟨hreply, hinv⟩ := hcall _ _ i g w c h.inv hg hfollows.1 (he _ hi)
        simp only [Pool.step, hi]
        refine ⟨fun t ht => ?_, ?_⟩
        · rcases List.mem_or_eq_of_mem_set ht with ht | rfl
          · exact h.follows t ht
          · exact hfollows.2 _ _ hreply
        · rw [known, List.map_set]
          exact hinv

/-- Along a run whose calls all meet the condition the invariant holds in every state. -/
theorem Ok.run {P : σ → List γ → γ → ω → C → Prop}
    (hprogram : ∀ b, Follows pr result (sys.init b) (sys.program b))
    (hstart : ∀ s gs b, Inv s gs → Inv s (gs ++ [sys.init b]))
    (henv : ∀ s gs e, Inv s gs → Inv (sys.env s e) gs)
    (hcall : ∀ s gs i g w c, Inv s gs → gs[i]? = some g → pr.allowed g c → P s gs g w c →
      pr.reply g c (sys.serve g w s c).2.1 (sys.serve g w s c).2.2 ∧
        Inv (sys.serve g w s c).1 (gs.set i (sys.serve g w s c).2.1))
    (h : pool.Ok pr result Inv) {evs : List (Event ω ε β)}
    (hevs : Runs.Along (Pool.step sys) pool (fun _ pool e => pool.CallMeets P e) evs) :
    (Runs.run (Pool.step sys) pool evs).Ok pr result Inv :=
  Runs.invariant (fun _ pool => pool.Ok pr result Inv) h
    (fun _ _ hmeets hok => hok.step hprogram hstart henv hcall hmeets) hevs

end Pool

end Calls

import Mathlib

/-!
# Processes over pipes

A process reads from one pipe and writes to another. `fread n` hands the next `n`
elements to the rest of the process, or what is left when the input ends before.

A process can be run on a whole input that then ends, alone or as the body of a loop.
Two processes can also talk: a client that ends and a server that repeats its body,
over a pair of unbounded FIFO pipes, in any interleaving. The steps of the two sides
commute, so the end of one schedule is the end of all.
-/

namespace OurChain

inductive Proc (ε α : Type) where
  | ret (a : α)
  | fread (n : Nat) (next : List ε → Proc ε α)
  | fwrite (bs : List ε) (next : Proc ε α)
  | throw

/-- How the body of a loop ends: another turn, or the loop is left. -/
inductive LoopStep (δ : Type) where
  | next (d : δ)
  | stop (d : δ)

variable {ε α β δ : Type}

namespace Proc

protected def bind : Proc ε α → (α → Proc ε β) → Proc ε β
  | ret a, k => k a
  | fread n next, k => fread n fun bs => (next bs).bind k
  | fwrite bs next, k => fwrite bs (next.bind k)
  | throw, _ => throw

instance : Monad (Proc ε) where
  pure := ret
  bind := Proc.bind

def read (n : Nat) : Proc ε (List ε) := fread n ret

def write (bs : List ε) : Proc ε Unit := fwrite bs (ret ())

@[simp] theorem pure_eq (a : α) : (pure a : Proc ε α) = ret a := rfl

@[simp] theorem bind_eq (p : Proc ε α) (k : α → Proc ε β) : p >>= k = p.bind k := rfl

@[simp] theorem ret_bind (a : α) (k : α → Proc ε β) : (ret a).bind k = k a := rfl

@[simp] theorem throw_bind (k : α → Proc ε β) : (throw : Proc ε α).bind k = throw := rfl

@[simp] theorem read_bind (n : Nat) (k : List ε → Proc ε β) : (read n).bind k = fread n k := rfl

@[simp] theorem write_bind (bs : List ε) (k : Unit → Proc ε β) :
    (write bs).bind k = fwrite bs (k ()) := rfl

@[simp] theorem fread_bind (n : Nat) (next : List ε → Proc ε α) (k : α → Proc ε β) :
    (fread n next).bind k = fread n fun bs => (next bs).bind k := rfl

@[simp] theorem fwrite_bind (bs : List ε) (next : Proc ε α) (k : α → Proc ε β) :
    (fwrite bs next).bind k = fwrite bs (next.bind k) := rfl

theorem bind_assoc {γ : Type} (p : Proc ε α) (k : α → Proc ε β) (l : β → Proc ε γ) :
    (p.bind k).bind l = p.bind fun a => (k a).bind l := by
  induction p with
  | ret a => rfl
  | fread n next ih => simp [ih]
  | fwrite bs next ih => simp [ih]
  | throw => rfl

theorem bind_ret (p : Proc ε α) : p.bind ret = p := by
  induction p with
  | ret a => rfl
  | fread n next ih => simp [ih]
  | fwrite bs next ih => simp [ih]
  | throw => rfl

/-- The result, none if the process threw, with the input left and the output. -/
structure Ran (ε α : Type) where
  result : Option α
  rest : List ε
  output : List ε

section
variable (out : List ε) (r : Ran ε α)

def Ran.after : Ran ε α := { r with output := out ++ r.output }

@[simp] theorem Ran.result_after : (r.after out).result = r.result := rfl

@[simp] theorem Ran.rest_after : (r.after out).rest = r.rest := rfl

@[simp] theorem Ran.output_after : (r.after out).output = out ++ r.output := rfl

end

def run : Proc ε α → List ε → Ran ε α
  | ret a, input => ⟨some a, input, []⟩
  | fread n next, input => (next (input.take n)).run (input.drop n)
  | fwrite bs next, input => (next.run input).after bs
  | throw, input => ⟨none, input, []⟩

@[simp] theorem run_ret (a : α) (input : List ε) : (ret a).run input = ⟨some a, input, []⟩ := rfl

@[simp] theorem run_throw (input : List ε) : (throw : Proc ε α).run input = ⟨none, input, []⟩ := rfl

@[simp] theorem run_fread (n : Nat) (next : List ε → Proc ε α) (input : List ε) :
    (fread n next).run input = (next (input.take n)).run (input.drop n) := rfl

@[simp] theorem run_fwrite (bs : List ε) (next : Proc ε α) (input : List ε) :
    (fwrite bs next).run input = (next.run input).after bs := rfl

/-- What a loop leaves: whether it returned, its data, and the output. A turn that
throws leaves the data that it started from. -/
structure LoopEnd (ε δ : Type) where
  returned : Bool
  data : δ
  output : List ε

def LoopEnd.after (out : List ε) (r : LoopEnd ε δ) :
    LoopEnd ε δ := { r with output := out ++ r.output }

def runLoop (body : δ → Proc ε (LoopStep δ)) : Nat → δ → List ε → LoopEnd ε δ
  | 0, d, _ => ⟨true, d, []⟩
  | fuel + 1, d, input =>
    let r := (body d).run input
    match r.result with
    | none => ⟨false, d, r.output⟩
    | some (.stop d) => ⟨true, d, r.output⟩
    | some (.next d) => (runLoop body fuel d r.rest).after r.output

/-- The loop on an input that ends. Every turn that goes on is expected to read
something, so the length of the input bounds the number of turns. -/
def serve (body : δ → Proc ε (LoopStep δ)) (d : δ) (input : List ε) : LoopEnd ε δ :=
  runLoop body (input.length + 1) d input

end Proc

/-- A server in a turn that started with `d`, or one that has left its loop. -/
inductive Server (ε δ : Type) where
  | running (d : δ) (p : Proc ε (LoopStep δ))
  | closed (d : δ) (threw : Bool)

structure Joint (ε α δ : Type) where
  client : Proc ε α
  server : Server ε δ
  toServer : List ε
  toClient : List ε

def Proc.ended : Proc ε α → Bool
  | ret _ => true
  | throw => true
  | _ => false

def Server.isClosed : Server ε δ → Bool
  | running .. => false
  | closed .. => true

namespace Joint

/-- A read waits until the pipe has enough or its other end is closed. -/
def clientStep (c : Joint ε α δ) : Option (Joint ε α δ) :=
  match c.client with
  | .ret _ => none
  | .throw => none
  | .fwrite bs next => some { c with client := next, toServer := c.toServer ++ bs }
  | .fread n next =>
    if n ≤ c.toClient.length ∨ c.server.isClosed then
      some { c with client := next (c.toClient.take n), toClient := c.toClient.drop n }
    else none

section
variable (body : δ → Proc ε (LoopStep δ))

def serverStep (c : Joint ε α δ) : Option (Joint ε α δ) :=
  match c.server with
  | .closed .. => none
  | .running _ (.ret (.next d)) => some { c with server := .running d (body d) }
  | .running _ (.ret (.stop d)) => some { c with server := .closed d false }
  | .running d .throw => some { c with server := .closed d true }
  | .running d (.fwrite bs next) =>
    some { c with server := .running d next, toClient := c.toClient ++ bs }
  | .running d (.fread n next) =>
    if n ≤ c.toServer.length ∨ c.client.ended then
      some { c with server := .running d (next (c.toServer.take n)), toServer := c.toServer.drop n }
    else none

def Step (a b : Joint ε α δ) : Prop :=
  clientStep a = some b ∨ serverStep body a = some b

def Reaches : Joint ε α δ → Joint ε α δ → Prop :=
  Relation.ReflTransGen (Step body)

end

/-- Both sides wait for input that only the other side could send. -/
def BothBlocked (c : Joint ε α δ) : Prop :=
  (∃ n next, c.client = .fread n next ∧ c.toClient.length < n) ∧
    ∃ d n next, c.server = .running d (.fread n next) ∧ c.toServer.length < n

def Stuck (body : δ → Proc ε (LoopStep δ)) (c : Joint ε α δ) : Prop := ∀ b, ¬ Step body c b

variable {body : δ → Proc ε (LoopStep δ)} {a b c : Joint ε α δ}

theorem BothBlocked.stuck (h : BothBlocked c) : Stuck body c := by
  obtain ⟨⟨n, next, hclient, hn⟩, d, m, next', hserver, hm⟩ := h
  rintro b (hstep | hstep)
  · simp [clientStep, hclient, hserver, Server.isClosed, Nat.not_le_of_lt hn] at hstep
  · simp [serverStep, hserver, hclient, Proc.ended, Nat.not_le_of_lt hm] at hstep

theorem diamond (hclient : clientStep a = some b) (hserver : serverStep body a = some c) :
    ∃ d, serverStep body b = some d ∧ clientStep c = some d := by
  obtain ⟨client, server, toServer, toClient⟩ := a
  cases server with
  | closed d threw => cases hserver
  | running d p =>
    cases client with
    | ret x => cases hclient
    | throw => cases hclient
    | fwrite bs next =>
      cases hclient
      cases p with
      | ret turn => cases turn <;> cases hserver <;> exact ⟨_, rfl, rfl⟩
      | throw => cases hserver; exact ⟨_, rfl, rfl⟩
      | fwrite bs' next' => cases hserver; exact ⟨_, rfl, rfl⟩
      | fread m next' =>
        -- what the server reads stands before what the client adds
        simp only [serverStep, Proc.ended, or_false, Bool.false_eq_true,
          Option.ite_none_right_eq_some] at hserver
        obtain ⟨hm, hserver⟩ := hserver
        cases hserver
        have hm' : m ≤ (toServer ++ bs).length := by
          rw [List.length_append]
          exact Nat.le_add_right_of_le hm
        refine ⟨_, if_pos (.inl hm'), ?_⟩
        simp only [clientStep, List.take_append_of_le_length hm, List.drop_append_of_le_length hm]
    | fread n next =>
      simp only [clientStep, Server.isClosed, or_false, Bool.false_eq_true,
        Option.ite_none_right_eq_some] at hclient
      obtain ⟨hn, hclient⟩ := hclient
      cases hclient
      cases p with
      | ret turn => cases turn <;> cases hserver <;> exact ⟨_, rfl, if_pos (.inl hn)⟩
      | throw => cases hserver; exact ⟨_, rfl, if_pos (.inl hn)⟩
      | fwrite bs' next' =>
        cases hserver
        refine ⟨_, rfl, ?_⟩
        have hn' : n ≤ (toClient ++ bs').length := by
          rw [List.length_append]
          exact Nat.le_add_right_of_le hn
        simp only [clientStep, hn', true_or, if_true, List.take_append_of_le_length hn,
          List.drop_append_of_le_length hn]
      | fread m next' =>
        simp only [serverStep, Proc.ended, or_false, Bool.false_eq_true,
          Option.ite_none_right_eq_some] at hserver
        obtain ⟨hm, hserver⟩ := hserver
        cases hserver
        exact ⟨_, if_pos (.inl hm), if_pos (.inl hn)⟩

section
variable {t : Joint ε α δ} {client : Proc ε α} {server : Server ε δ} {toServer toClient : List ε}

theorem Reaches.client_write (h : Reaches body ⟨client, server, toServer ++ bs, toClient⟩ t) :
    Reaches body ⟨.fwrite bs client, server, toServer, toClient⟩ t :=
  .head (.inl rfl) h

theorem Reaches.client_read {next : List ε → Proc ε α} (hbs : bs.length = n)
    (hpipe : toClient = bs ++ rest) (h : Reaches body ⟨next bs, server, toServer, rest⟩ t) :
    Reaches body ⟨.fread n next, server, toServer, toClient⟩ t := by
  subst hpipe
  refine .head (.inl ?_) h
  have hlen : n ≤ (bs ++ rest).length := by simp [hbs]
  simp only [clientStep, if_pos (Or.inl hlen), List.take_left' hbs, List.drop_left' hbs]

theorem Reaches.server_write {p : Proc ε (LoopStep δ)}
    (h : Reaches body ⟨client, .running d p, toServer, toClient ++ bs⟩ t) :
    Reaches body ⟨client, .running d (.fwrite bs p), toServer, toClient⟩ t :=
  .head (.inr rfl) h

variable {next : List ε → Proc ε (LoopStep δ)}

theorem Reaches.server_read (hbs : bs.length = n)
    (hpipe : toServer = bs ++ rest) (h : Reaches body ⟨client, .running d (next bs), rest,
    toClient⟩ t) :
    Reaches body ⟨client, .running d (.fread n next), toServer, toClient⟩ t := by
  subst hpipe
  refine .head (.inr ?_) h
  have hlen : n ≤ (bs ++ rest).length := by simp [hbs]
  simp only [serverStep, if_pos (Or.inl hlen), List.take_left' hbs, List.drop_left' hbs]

theorem Reaches.server_next (h : Reaches body ⟨client, .running d' (body d'), toServer, toClient⟩ t) :
    Reaches body ⟨client, .running d (.ret (.next d')), toServer, toClient⟩ t :=
  .head (.inr rfl) h

theorem Reaches.server_end (hclient : client.ended = true)
    (h : Reaches body ⟨client, .running d (next []), [], toClient⟩ t) :
    Reaches body ⟨client, .running d (.fread n next), [], toClient⟩ t := by
  refine .head (.inr ?_) h
  simp [serverStep, hclient]

theorem Reaches.server_stop (h : Reaches body ⟨client, .closed d' false, toServer, toClient⟩ t) :
    Reaches body ⟨client, .running d (.ret (.stop d')), toServer, toClient⟩ t :=
  .head (.inr rfl) h

theorem Reaches.server_throw (h : Reaches body ⟨client, .closed d true, toServer, toClient⟩ t) :
    Reaches body ⟨client, .running d .throw, toServer, toClient⟩ t :=
  .head (.inr rfl) h

theorem stuck_of_ended (hclient : client.ended = true) :
    Stuck body ⟨client, .closed d threw, toServer, toClient⟩ := by
  rintro b (hstep | hstep)
  · cases client <;> simp_all [clientStep, Proc.ended]
  · cases hstep

theorem Reaches.closed (h : Reaches body a b) (ha : a.server = .closed d threw) :
    b.server = .closed d threw := by
  induction h with
  | refl => exact ha
  | @tail b c _ hstep ih =>
    rcases hstep with hstep | hstep
    · unfold clientStep at hstep
      split at hstep
      · cases hstep
      · cases hstep
      · cases hstep
        exact ih
      · split at hstep
        · cases hstep
          exact ih
        · cases hstep
    · simp [serverStep, ih] at hstep

end

theorem Reaches.confluent {t : Joint ε α δ} (ht : Stuck body t) (hat : Reaches body a t)
    (hab : Reaches body a b) : Reaches body b t := by
  have hstrip : ∀ {a b}, Reaches body a t → Step body a b → Reaches body b t := by
    intro a b hat
    induction hat using Relation.ReflTransGen.head_induction_on generalizing b with
    | refl => exact fun hstep => absurd hstep (ht b)
    | head hfirst hrest ih =>
      intro hstep
      rcases hfirst with hfirst | hfirst <;> rcases hstep with hstep | hstep
      · cases hfirst.symm.trans hstep
        exact hrest
      · obtain ⟨d, hserver, hclient⟩ := diamond hfirst hstep
        exact .head (.inl hclient) (ih (.inr hserver))
      · obtain ⟨d, hserver, hclient⟩ := diamond hstep hfirst
        exact .head (.inr hserver) (ih (.inl hclient))
      · cases hfirst.symm.trans hstep
        exact hrest
  induction hab with
  | refl => exact hat
  | tail _ hstep ih => exact hstrip ih hstep

theorem Reaches.eq_of_stuck (ha : Stuck body a) (h : Reaches body a b) : a = b := by
  rcases Relation.ReflTransGen.cases_head h with rfl | ⟨c, hstep, -⟩
  · rfl
  · exact absurd hstep (ha c)

theorem Reaches.stuck_unique {t : Joint ε α δ} (ht : Stuck body t) (hat : Reaches body a t)
    (hab : Reaches body a b) (hb : Stuck body b) : b = t :=
  (Reaches.confluent ht hat hab).eq_of_stuck hb

end Joint

end OurChain

/-
MiniCcl/ByteStream.lean

A stream between two parties that write and read it in parts.

A party makes requests and goes on with their answers (`Interaction`).  An answer moves
some elements between the party and the stream, and how many is up to the environment.
`Moves rel p bs p'` says that `p` has become `p'` by answers that have moved `bs` in
all; what follows for one call is an invariant of it (`Moves.invariant`).

A party makes one call after the other (`Session`), and a `Link` is a stream from the
session that writes it to the session that reads it.  Whatever the answers are, what has
been written is what has been read and what is still on the wire, and each call has moved
what it could have moved alone (`Link.valid_of_reaches`).

A self-delimiting code cuts the stream again at the places where it was put together
(`Code.eq_of_decodes`).
-/
import MiniCcl.Confluence
import Mathlib.Data.List.Basic
import Mathlib.Data.Nat.Notation
import Mathlib.Tactic.Cases

namespace MiniCcl.ByteStream

variable {Q A R Q' A' R' β : Type*}

/-! ### One call -/

/-- A computation that makes requests to its environment. -/
inductive Interaction (Q A R : Type*)
  | ret (r : R)
  | ask (q : Q) (k : A → Interaction Q A R)

namespace Interaction

/-- Change the result. -/
def map (f : R → R') : Interaction Q A R → Interaction Q A R'
  | ret r => ret (f r)
  | ask q k => ask q fun a => (k a).map f

/-- `rel q a bs`: the answer `a` to the request `q` moves `bs`.  `Moves rel p bs p'`:
`p` has become `p'`, and its answers have moved `bs`. -/
inductive Moves (rel : Q → A → List β → Prop) (p : Interaction Q A R) :
    List β → Interaction Q A R → Prop
  | start : Moves rel p [] p
  | ask {bs bs' : List β} {q : Q} {k : A → Interaction Q A R} {a : A} :
      Moves rel p bs (ask q k) → rel q a bs' → Moves rel p (bs ++ bs') (k a)

namespace Moves

variable {rel : Q → A → List β → Prop} {p p' : Interaction Q A R} {bs : List β}

/-- What holds at the start and after each answer holds throughout the call. -/
theorem invariant {J : List β → Interaction Q A R → Prop} (hstart : J [] p)
    (hask : ∀ {bs q k a bs'}, J bs (.ask q k) → rel q a bs' → J (bs ++ bs') (k a))
    (h : Moves rel p bs p') : J bs p' := by
  induction h with
  | start => exact hstart
  | ask _ ha ih => exact hask ih ha

theorem answer {q : Q} {k : A → Interaction Q A R} {a : A} (ha : rel q a bs) (hk : k a = p') :
    Moves rel (.ask q k) bs p' := by
  have h : Moves rel (.ask q k) ([] ++ bs) (k a) := .ask .start ha
  rw [List.nil_append, hk] at h
  exact h

theorem trans {bs' : List β} {p'' : Interaction Q A R} (h : Moves rel p bs p')
    (h' : Moves rel p' bs' p'') : Moves rel p (bs ++ bs') p'' := by
  induction h' with
  | start => rwa [List.append_nil]
  | ask _ ha ih =>
      rw [← List.append_assoc]
      exact ih.ask ha

/-- A call has made no request, or it has gone on with the answer to the first one. -/
theorem of_ask {q : Q} {k : A → Interaction Q A R} (h : Moves rel (.ask q k) bs p') :
    (bs = [] ∧ p' = .ask q k)
    ∨ ∃ a bs₁ bs₂, rel q a bs₁ ∧ Moves rel (k a) bs₂ p' ∧ bs = bs₁ ++ bs₂ := by
  induction h with
  | start => exact .inl ⟨rfl, rfl⟩
  | @ask _ bs' _ _ _ _ ha ih =>
      right
      rcases ih with ⟨rfl, hfirst⟩ | ⟨a, bs₁, bs₂, hrel, hmoves, rfl⟩
      · obtain ⟨rfl, rfl⟩ := Interaction.ask.inj hfirst
        exact ⟨_, bs', [], ha, .start, by simp⟩
      · exact ⟨a, bs₁, bs₂ ++ bs', hrel, .ask hmoves ha, by simp⟩

theorem of_ret {r : R} (h : Moves rel (.ret r) bs p') : bs = [] ∧ p' = .ret r := by
  induction h with
  | start => exact ⟨rfl, rfl⟩
  | ask _ _ ih => exact absurd ih.2 (by simp)

/-- A call that changes its result moves what the call itself moves. -/
theorem of_map {f : R → R'} {p' : Interaction Q A R'} (h : Moves rel (p.map f) bs p') :
    ∃ p₀ : Interaction Q A R, p' = p₀.map f ∧ Moves rel p bs p₀ := by
  generalize hp : p.map f = p₁ at h
  induction h with
  | start => exact ⟨p, hp.symm, .start⟩
  | @ask _ _ q k a _ ha ih =>
      obtain ⟨p₀, hp₀, hmoves⟩ := ih
      cases p₀ with
      | ret r => simp [map] at hp₀
      | ask q₀ k₀ =>
          obtain ⟨rfl, rfl⟩ := Interaction.ask.inj hp₀
          exact ⟨k₀ a, rfl, .ask hmoves ha⟩

end Moves

end Interaction

/-! ### One call after the other -/

/-- A party that makes calls, with the results of those that have returned and what each
of them has moved. -/
structure Session (Q A R β : Type*) where
  done : List (R × List β)
  moved : List β
  current : Interaction Q A R

namespace Session

def start (calls : ℕ → Interaction Q A R) : Session Q A R β := ⟨[], [], calls 0⟩

/-- What the calls that have returned have moved. -/
def returned (s : Session Q A R β) : List β := (s.done.map Prod.snd).flatten

/-- What has been moved so far. -/
def total (s : Session Q A R β) : List β := s.returned ++ s.moved

inductive Step (rel : Q → A → List β → Prop) (calls : ℕ → Interaction Q A R) :
    Session Q A R β → List β → Session Q A R β → Prop
  | answer {done : List (R × List β)} {moved bs : List β} {q : Q} {k : A → Interaction Q A R}
      {a : A} (h : rel q a bs) :
      Step rel calls ⟨done, moved, .ask q k⟩ bs ⟨done, moved ++ bs, k a⟩
  | next {done : List (R × List β)} {moved : List β} {r : R} :
      Step rel calls ⟨done, moved, .ret r⟩ []
        ⟨done ++ [(r, moved)], [], calls (done.length + 1)⟩

variable {rel : Q → A → List β → Prop} {calls : ℕ → Interaction Q A R}
  {s t : Session Q A R β} {bs : List β}

theorem Step.total_eq (h : Step rel calls s bs t) : t.total = s.total ++ bs := by
  cases h with
  | answer _ => simp only [total, returned, List.append_assoc]
  | next => simp [total, returned]

/-- Each call has moved what it could have moved alone. -/
structure Valid (rel : Q → A → List β → Prop) (calls : ℕ → Interaction Q A R)
    (s : Session Q A R β) : Prop where
  done : ∀ {k r bs}, s.done[k]? = some (r, bs) → (calls k).Moves rel bs (.ret r)
  current : (calls s.done.length).Moves rel s.moved s.current

theorem Valid.start : Valid rel calls (start calls) where
  done h := absurd h (by simp [Session.start])
  current := .start

theorem Valid.step (h : Valid rel calls s) (hstep : Step rel calls s bs t) :
    Valid rel calls t := by
  cases hstep with
  | answer ha => exact ⟨h.done, h.current.ask ha⟩
  | @next done moved r =>
      refine ⟨?_, ?_⟩
      · intro k r' bs' hk
        rcases Nat.lt_or_ge k done.length with hlt | hge
        · exact h.done (by simpa [List.getElem?_append_left hlt] using hk)
        · -- only the call that returns is new
          rw [List.getElem?_append_right hge, List.getElem?_singleton] at hk
          split at hk
          · cases hk
            obtain rfl : k = done.length := by omega
            exact h.current
          · cases hk
      · rw [List.length_append, List.length_singleton]
        exact .start

/-- The calls that have returned, if it is known what each of them has moved. -/
theorem returned_eq {f : ℕ → List β} (hf : ∀ {k x}, s.done[k]? = some x → x.2 = f k) :
    s.returned = ((List.range s.done.length).map f).flatten := by
  have hmap : s.done.map Prod.snd = (List.range s.done.length).map f := by
    apply List.ext_getElem (by simp)
    intro k hk _
    have hlt : k < s.done.length := by simpa using hk
    simpa using hf (List.getElem?_eq_getElem hlt)
  rw [returned, hmap]

/-- What the first `n` calls have moved comes first. -/
theorem take_returned_prefix (s : Session Q A R β) (n : ℕ) :
    ((s.done.take n).map Prod.snd).flatten <+: s.total := by
  have hsplit : s.returned = ((s.done.take n).map Prod.snd).flatten
      ++ ((s.done.drop n).map Prod.snd).flatten := by
    rw [← List.flatten_append, ← List.map_append, List.take_append_drop]
    rfl
  rw [total, hsplit, List.append_assoc]
  exact List.prefix_append ..

/-- A call moves the elements from the place on where the calls before it have stopped. -/
theorem prefix_drop {k : ℕ} {r : R} (hk : s.done[k]? = some (r, bs)) :
    bs <+: s.total.drop ((s.done.take k).map Prod.snd).flatten.length := by
  obtain ⟨hlt, heq⟩ := List.getElem?_eq_some_iff.mp hk
  obtain ⟨rest, hrest⟩ := s.take_returned_prefix (k + 1)
  rw [List.take_succ_eq_append_getElem hlt, heq, List.map_append, List.flatten_append] at hrest
  simp only [List.map_cons, List.map_nil, List.flatten_singleton, List.append_assoc] at hrest
  rw [← hrest, List.drop_left]
  exact List.prefix_append ..

end Session

/-! ### Two parties -/

/-- A stream with the session that writes it and the session that reads it. -/
structure Link (Q A R Q' A' R' β : Type*) where
  sender : Session Q A R β
  wire : List β
  receiver : Session Q' A' R' β

namespace Link

def start (sends : ℕ → Interaction Q A R) (recvs : ℕ → Interaction Q' A' R') :
    Link Q A R Q' A' R' β :=
  ⟨.start sends, [], .start recvs⟩

/-- Which session takes the step. -/
inductive Party
  | sender
  | receiver
  deriving DecidableEq, Repr

inductive Step (write : Q → A → List β → Prop) (read : Q' → A' → List β → Prop)
    (sends : ℕ → Interaction Q A R) (recvs : ℕ → Interaction Q' A' R') :
    Lts (Link Q A R Q' A' R' β) Party
  | send {s : Link Q A R Q' A' R' β} {t : Session Q A R β} {bs : List β}
      (h : s.sender.Step write sends bs t) :
      Step write read sends recvs s .sender { s with sender := t, wire := s.wire ++ bs }
  | recv {s : Link Q A R Q' A' R' β} {t : Session Q' A' R' β} {bs rest : List β}
      (h : s.receiver.Step read recvs bs t) (hwire : s.wire = bs ++ rest) :
      Step write read sends recvs s .receiver { s with receiver := t, wire := rest }

/-- Nothing is lost, made up or reordered. -/
structure Valid (write : Q → A → List β → Prop) (read : Q' → A' → List β → Prop)
    (sends : ℕ → Interaction Q A R) (recvs : ℕ → Interaction Q' A' R')
    (s : Link Q A R Q' A' R' β) : Prop where
  sender : s.sender.Valid write sends
  receiver : s.receiver.Valid read recvs
  stream : s.sender.total = s.receiver.total ++ s.wire

variable {write : Q → A → List β → Prop} {read : Q' → A' → List β → Prop}
  {sends : ℕ → Interaction Q A R} {recvs : ℕ → Interaction Q' A' R'}

theorem Valid.step {s t : Link Q A R Q' A' R' β} {x : Party}
    (h : Valid write read sends recvs s) (hstep : Step write read sends recvs s x t) :
    Valid write read sends recvs t := by
  cases hstep with
  | send hsend =>
      refine ⟨h.sender.step hsend, h.receiver, ?_⟩
      rw [hsend.total_eq, h.stream, List.append_assoc]
  | recv hrecv hwire =>
      refine ⟨h.sender, h.receiver.step hrecv, ?_⟩
      rw [hrecv.total_eq, List.append_assoc, ← hwire, h.stream]

theorem Valid.receiver_prefix {s : Link Q A R Q' A' R' β} (h : Valid write read sends recvs s) :
    s.receiver.total <+: s.sender.total := by
  rw [h.stream]
  exact List.prefix_append ..

/-- The sender can do on the stream what its call can do alone. -/
theorem reaches_sender {s : Link Q A R Q' A' R' β} {done : List (R × List β)}
    {moved bs : List β} {p p' : Interaction Q A R} (hs : s.sender = ⟨done, moved, p⟩)
    (h : p.Moves write bs p') :
    (Step write read sends recvs).Reaches s
      { s with sender := ⟨done, moved ++ bs, p'⟩, wire := s.wire ++ bs } := by
  induction h with
  | start =>
      rw [List.append_nil, List.append_nil, ← hs]
      exact .refl
  | ask _ ha ih =>
      rw [← List.append_assoc, ← List.append_assoc]
      exact ih.tail ⟨.sender, .send (.answer ha)⟩

/-- And the receiver, with what is on the wire. -/
theorem reaches_receiver {s : Link Q A R Q' A' R' β} {done : List (R' × List β)}
    {moved bs rest : List β} {p p' : Interaction Q' A' R'} (hs : s.receiver = ⟨done, moved, p⟩)
    (h : p.Moves read bs p') (hwire : s.wire = bs ++ rest) :
    (Step write read sends recvs).Reaches s
      { s with receiver := ⟨done, moved ++ bs, p'⟩, wire := rest } := by
  induction h generalizing rest with
  | start =>
      rw [List.append_nil, ← hs, ← List.nil_append rest, ← hwire]
      exact .refl
  | ask _ ha ih =>
      rw [List.append_assoc] at hwire
      rw [← List.append_assoc]
      exact (ih hwire).tail ⟨.receiver, .recv (.answer ha) rfl⟩

/-- The sender can go on to the end of its call and to the next one. -/
theorem reaches_sender_next {s : Link Q A R Q' A' R' β} {done : List (R × List β)}
    {moved bs : List β} {p : Interaction Q A R} {r : R} (hs : s.sender = ⟨done, moved, p⟩)
    (h : p.Moves write bs (.ret r)) :
    (Step write read sends recvs).Reaches s
      { s with
        sender := ⟨done ++ [(r, moved ++ bs)], [], sends (done.length + 1)⟩
        wire := s.wire ++ bs } := by
  have hcall : (Step write read sends recvs).Reaches s
      { s with sender := ⟨done, moved ++ bs, .ret r⟩, wire := s.wire ++ bs } :=
    reaches_sender hs h
  have hnext := hcall.tail ⟨.sender, .send .next⟩
  rwa [List.append_nil] at hnext

/-- And the receiver. -/
theorem reaches_receiver_next {s : Link Q A R Q' A' R' β} {done : List (R' × List β)}
    {moved bs rest : List β} {p : Interaction Q' A' R'} {r : R'}
    (hs : s.receiver = ⟨done, moved, p⟩) (h : p.Moves read bs (.ret r))
    (hwire : s.wire = bs ++ rest) :
    (Step write read sends recvs).Reaches s
      { s with
        receiver := ⟨done ++ [(r, moved ++ bs)], [], recvs (done.length + 1)⟩
        wire := rest } :=
  (reaches_receiver hs h hwire).tail ⟨.receiver, .recv .next rfl⟩

theorem valid_of_reaches {s : Link Q A R Q' A' R' β}
    (h : (Step write read sends recvs).Reaches (start sends recvs) s) :
    Valid write read sends recvs s := by
  induction h with
  | refl => exact ⟨.start, .start, rfl⟩
  | tail _ hstep ih =>
      obtain ⟨x, hx⟩ := hstep
      exact ih.step hx

end Link

/-! ### Self-delimiting codes -/

/-- A code whose decoder finds the end of a message by itself. -/
structure Code (μ β : Type*) where
  encode : μ → List β
  /-- The first message of a stream and what follows it, once it is there. -/
  decode : List β → Option (μ × List β)
  /-- The messages that the code can carry. -/
  Fits : μ → Prop
  decode_encode : ∀ {m} (rest : List β), Fits m → decode (encode m ++ rest) = some (m, rest)
  decode_append : ∀ {bs m rest} (bs' : List β), decode bs = some (m, rest) →
    decode (bs ++ bs') = some (m, rest ++ bs')

namespace Code

variable {μ : Type*} {c : Code μ β}

/-- The first `n` messages on a stream. -/
def stream (c : Code μ β) (msgs : ℕ → μ) (n : ℕ) : List β :=
  ((List.range n).map fun k => c.encode (msgs k)).flatten

theorem stream_cons (msgs : ℕ → μ) (n : ℕ) :
    c.stream msgs (n + 1) = c.encode (msgs 0) ++ c.stream (fun k => msgs (k + 1)) n := by
  simp [stream, List.range_succ_eq_map, Function.comp_def]

theorem stream_succ (msgs : ℕ → μ) (n : ℕ) :
    c.stream msgs (n + 1) = c.stream msgs n ++ c.encode (msgs n) := by
  simp [stream, List.range_succ]

theorem stream_prefix {msgs : ℕ → μ} {m n : ℕ} (h : m ≤ n) :
    c.stream msgs m <+: c.stream msgs n := by
  induction h with
  | refl => exact List.prefix_rfl
  | step _ ih => exact ih.trans (stream_succ msgs _ ▸ List.prefix_append ..)

/-- Pieces of a stream that decode without a rest are its messages. -/
theorem eq_of_decodes {msgs : ℕ → μ} (hfits : ∀ k, c.Fits (msgs k)) {n : ℕ}
    {pieces : List (μ × List β)} (hpieces : ∀ x ∈ pieces, c.decode x.2 = some (x.1, []))
    (hn : pieces.length ≤ n) (hstream : (pieces.map Prod.snd).flatten <+: c.stream msgs n) :
    pieces = (List.range pieces.length).map fun k => (msgs k, c.encode (msgs k)) := by
  induction pieces generalizing msgs n with
  | nil => rfl
  | cons x pieces ih =>
      obtain ⟨n, rfl⟩ : ∃ n', n = n' + 1 := Nat.exists_eq_succ_of_ne_zero (by simp at hn; omega)
      obtain ⟨rest, hrest⟩ := hstream
      -- the first message is decoded twice, as the piece and as the code of `msgs 0`
      have hfirst := c.decode_append ((pieces.map Prod.snd).flatten ++ rest)
        (hpieces x List.mem_cons_self)
      have heq : x.2 ++ ((pieces.map Prod.snd).flatten ++ rest)
          = c.encode (msgs 0) ++ c.stream (fun k => msgs (k + 1)) n := by
        simpa [stream_cons] using hrest
      rw [heq, c.decode_encode _ (hfits 0)] at hfirst
      obtain ⟨hm, htail⟩ := Prod.mk.inj (Option.some.inj hfirst)
      rw [List.nil_append] at htail
      rw [htail, List.append_left_inj] at heq
      have hrec := ih (fun k => hfits (k + 1)) (fun y hy => hpieces y (List.mem_cons_of_mem _ hy))
        (Nat.le_of_succ_le_succ hn) ⟨rest, htail.symm⟩
      rw [List.length_cons, List.range_succ_eq_map, List.map_cons, List.map_map]
      congr 1
      exact Prod.ext hm.symm heq

end Code

end MiniCcl.ByteStream

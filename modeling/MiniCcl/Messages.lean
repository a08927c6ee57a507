/-
MiniCcl/Messages.lean

The messages that a process sends to another one, in their order.

A network takes its steps in many orders, and a process may have several transfers
outstanding at once.  But what it sends to one peer it sends in the order of its program:
the message that completes is the first of those to this peer that are before the process.
So what has been sent and what is yet to be sent make up one list in all states of a run
(`messages_of_reaches`), and a script gives that list (`Script.messages`).
-/
import MiniCcl.Position

namespace MiniCcl

variable {ι β α : Type*} [DecidableEq ι]

/-! ### Messages to one peer -/

/-- The transfer, if it is a `Send` to `j`. -/
def Local.toward (j : ι) : Local ι β α → Option (Xfer ι β)
  | .xfer x => if x.key = (.send, j) then some x else none
  | .act _ => none

/-- The message from `i` to `j` in an event. -/
def Event.messages (i j : ι) : Event ι β α → List (Xfer ι β)
  | comm i' s j' _ w => if i = i' ∧ j = j' then [⟨.send, j, s, w⟩] else []
  | act _ _ => []

/-- The messages from `i` to `j` in a script. -/
def Script.messages (i j : ι) (C : Script ι β α) : List (Xfer ι β) := C.flatMap (Event.messages i j)

theorem Event.filterMap_project {i j : ι} (e : Event ι β α) :
    (e.project i).filterMap (Local.toward j) = e.messages i j := by
  cases e with
  | act r f =>
      rw [project, messages]
      split <;> rfl
  | comm i' s j' d w =>
      rw [project, messages]
      by_cases hi : i = i'
      · rw [if_pos hi]
        by_cases hj : j = j'
        · simp [Local.toward, Xfer.key, hi, hj]
        · simp [Local.toward, Xfer.key, hj, Ne.symm hj]
      · have hne : ¬ (i = i' ∧ j = j') := fun h => hi h.1
        rw [if_neg hi, if_neg hne]
        split <;> simp [Local.toward, Xfer.key]

theorem Script.filterMap_project (i j : ι) (C : Script ι β α) :
    (project i C).filterMap (Local.toward j) = messages i j C := by
  rw [project, messages, List.filterMap_flatMap]
  exact List.flatMap_congr fun e _ => e.filterMap_project

namespace Node

/-- What the process has yet to send to `j`. -/
def toSend (x : Node ι β α) (j : ι) : List (Xfer ι β) := x.todo.filterMap (Local.toward j)

variable {x y : Node ι β α}

theorem toSend_local? (h : x.local? = some y) (j : ι) : y.toSend j = x.toSend j := by
  rcases local?_cases h with ⟨f, k, m, rfl, rfl⟩ | ⟨ops, k, m, rfl, rfl⟩
  · rfl
  · rfl

/-- The message that completes is the first one to its peer; messages to others stay. -/
theorem filterMap_eraseP {k : Dir × ι} {op : Xfer ι β} {l : List (Xfer ι β)}
    (hop : l.find? (fun y => decide (y.key = k)) = some op) (j : ι) :
    (if k = (.send, j) then [op] else [])
        ++ ((l.eraseP fun y => decide (y.key = k)).map (Local.xfer (α := α))).filterMap
          (Local.toward j)
      = (l.map (Local.xfer (α := α))).filterMap (Local.toward j) := by
  induction l with
  | nil => cases hop
  | cons z l ih =>
      by_cases hz : z.key = k
      · obtain rfl : z = op := by simpa [hz] using hop
        rw [List.eraseP_cons_of_pos (by simpa using hz), List.map_cons, List.filterMap_cons]
        by_cases hk : k = (.send, j)
        · simp [Local.toward, hz, hk]
        · simp [Local.toward, hz, hk]
      · rw [List.find?_cons_of_neg (by simpa using hz)] at hop
        rw [List.eraseP_cons_of_neg (by simpa using hz), List.map_cons, List.map_cons,
          List.filterMap_cons, List.filterMap_cons, ← ih hop]
        by_cases hk : k = (.send, j)
        · have hzj : z.key ≠ (.send, j) := fun h => hz (h.trans hk.symm)
          simp [Local.toward, hzj]
        · simp [hk]

theorem toSend_without {k : Dir × ι} {op : Xfer ι β} (hop : x.find k = some op) (m : Mem β α)
    (j : ι) :
    (if k = (.send, j) then [op] else [])
      ++ (⟨x.without k, x.next, m⟩ : Node ι β α).toSend j = x.toSend j := by
  simp only [toSend, todo, List.filterMap_append]
  rw [← List.append_assoc]
  exact congrArg (· ++ _) (filterMap_eraseP hop j)

end Node

/-! ### Programs -/

/-- The actions of a program have the messages in the order of its batches. -/
theorem Performs.filterMap_toward {ops : List (Xfer ι β)} {p : Prog ι β α}
    {l : List (Local ι β α)} (h : Performs ops p l) (j : ι) (m : Mem β α) :
    (⟨ops, p, m⟩ : Node ι β α).toSend j = l.filterMap (Local.toward j) := by
  induction h with
  | done => rfl
  | @act f p l _ ih =>
      rw [List.filterMap_cons]
      exact ih
  | spawn _ ih => exact ih
  | @xfer ops p x l hx _ ih =>
      rw [← Node.toSend_without (x := ⟨ops, p, m⟩) (k := x.key) hx m j]
      show (if x.key = (.send, j) then [x] else [])
        ++ (⟨ops.eraseP fun y => decide (y.key = x.key), p, m⟩ : Node ι β α).toSend j = _
      rw [ih, List.filterMap_cons]
      by_cases hk : x.key = (.send, j)
      · simp [Local.toward, hk]
      · simp [Local.toward, hk]

/-! ### Runs -/

namespace Fifo

variable {s t : Fifo ι β α}

/-- The message from `i` to `j` in a step. -/
def sentBy (i j : ι) (s : Fifo ι β α) : Label ι → List (Xfer ι β)
  | .push i' j' => if i = i' ∧ j = j' then ((s.node i).find (.send, j)).toList else []
  | _ => []

variable [DecidableEq β]

/-- A run in which `i` sends the messages `l` to `j`, in this order. -/
inductive Sends (i j : ι) (s : Fifo ι β α) : List (Xfer ι β) → Fifo ι β α → Prop
  | start : Sends i j s [] s
  | tail {l : List (Xfer ι β)} {t u : Fifo ι β α} {a : Label ι} :
      Sends i j s l t → Fifo.step t a u → Sends i j s (l ++ sentBy i j t a) u

theorem Sends.reaches {i j : ι} {l : List (Xfer ι β)} (h : Sends i j s l t) :
    step.Reaches s t := by
  induction h with
  | start => exact .refl
  | tail _ hstep ih => exact ih.tail ⟨_, hstep⟩

/-- Every run sends some messages. -/
theorem exists_sends (i j : ι) (h : step.Reaches s t) : ∃ l, Sends i j s l t := by
  induction h with
  | refl => exact ⟨[], .start⟩
  | tail _ hstep ih =>
      obtain ⟨l, hl⟩ := ih
      obtain ⟨a, hstep⟩ := hstep
      exact ⟨_, hl.tail hstep⟩

omit [DecidableEq β] in
/-- The message of a step is the transfer that completes. -/
theorem sentBy_of_role {a : Label ι} {r : ι} {k : Dir × ι} {op : Xfer ι β}
    (hrole : a.role r = .xfer k) (hop : (s.node r).find k = some op) (i j : ι) :
    sentBy i j s a = if i = r ∧ k = (.send, j) then [op] else [] := by
  cases a with
  | act q =>
      rw [Label.role] at hrole
      split at hrole <;> cases hrole
  | push i' j' =>
      rw [Label.role] at hrole
      split at hrole
      · next hr =>
          obtain rfl := Role.xfer.inj hrole
          subst hr
          by_cases h : i = r ∧ j = j'
          · obtain ⟨rfl, rfl⟩ := h
            rw [sentBy, if_pos ⟨rfl, rfl⟩, if_pos ⟨rfl, rfl⟩, hop]
            rfl
          · have hne : ¬ (i = r ∧ ((.send, j') : Dir × ι) = (.send, j)) := fun hr =>
              h ⟨hr.1, (congrArg Prod.snd hr.2).symm⟩
            rw [sentBy, if_neg h, if_neg hne]
      · cases hrole
  | pull i' j' =>
      rw [Label.role] at hrole
      split at hrole
      · obtain rfl := Role.xfer.inj hrole
        have hne : ¬ (i = r ∧ ((.recv, i') : Dir × ι) = (.send, j)) := fun hr =>
          Dir.noConfusion (congrArg Prod.fst hr.2)
        rw [sentBy, if_neg hne]
        rintro _ _ ⟨⟩
      · cases hrole

/-- **What is sent in a step was the next to be sent.** -/
theorem sentBy_append {a : Label ι} (h : Fifo.step s a t) (i j : ι) :
    sentBy i j s a ++ (t.node i).toSend j = (s.node i).toSend j := by
  obtain ⟨r, hothers, hr⟩ := step_cases h
  rcases hr with ⟨rfl, hlocal, -⟩ | ⟨k, op, m, hrole, hop, hnode, -⟩
  · show [] ++ _ = _
    rw [List.nil_append]
    by_cases hi : i = r
    · subst hi
      exact Node.toSend_local? hlocal j
    · rw [hothers i hi]
  · have hsent := sentBy_of_role hrole hop i j
    by_cases hi : i = r
    · subst hi
      rw [hsent, hnode, ← Node.toSend_without hop m j]
      simp
    · have hne : ¬ (i = r ∧ k = (.send, j)) := fun h => hi h.1
      rw [hsent, if_neg hne, hothers i hi, List.nil_append]

/-- **What has been sent and what is yet to be sent are the messages of the script.** -/
theorem Sends.append_toSend {R : ι → Prop} [DecidablePred R] {P : ι → Prog ι β α}
    {C : Script ι β α} (hP : Schedule R P C) {m : ι → Mem β α} {i j : ι} {l : List (Xfer ι β)}
    (h : Sends i j (Fifo.init (team R P) m) l s) :
    l ++ (s.node i).toSend j = Script.messages i j C := by
  induction h with
  | start =>
      rw [List.nil_append, ← Script.filterMap_project]
      exact ((hP.awaits_start m).performs i).filterMap_toward j (m i)
  | tail _ hstep ih => rw [List.append_assoc, sentBy_append hstep, ih]

/-- Once a process has returned, it has sent all its messages. -/
theorem Sends.eq_messages {R : ι → Prop} [DecidablePred R] {P : ι → Prog ι β α}
    {C : Script ι β α} (hP : Schedule R P C) {m : ι → Mem β α} {i j : ι} {l : List (Xfer ι β)}
    (h : Sends i j (Fifo.init (team R P) m) l s) (hdone : (s.node i).Finished) :
    l = Script.messages i j C := by
  obtain ⟨b, hb⟩ := hdone
  have hnil : (s.node i).toSend j = [] := by
    rw [Node.toSend, Node.todo_of_returned hb]
    rfl
  rw [← h.append_toSend hP, hnil, List.append_nil]

end Fifo

end MiniCcl

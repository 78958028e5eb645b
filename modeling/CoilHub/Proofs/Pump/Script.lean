import CoilHub.Pump

namespace CoilHub

namespace Pump

inductive Direction
  | read
  | write
deriving DecidableEq

-- What is done to a pump. A read has its beginning and its end, with anything else between them, and
-- one that is abandoned has no end. Reads of one address that are under way do not differ, so that
-- nothing more needs to be known of them than the address.
inductive Act
  | fail (d : Direction) (a : Address) (e : FetchError)
  | setValue (a : Address) (value : CoilValue)
  | beginRead (a : Address)
  | finishRead (a : Address)
  | write (a : Address) (value : CoilValue)
  | clearLog

-- What there is to say about an act afterwards.
inductive Entry
  | queues (d : Direction) (a : Address) (e : FetchError)
  | sets (a : Address) (value : CoilValue)
  | begins (a : Address)
  | answers (d : Direction) (a : Address) (result : FetchResult CoilValue)
  | clears

def perform (p : Pump) : Act → Entry × Pump
  | .fail .read a e => (.queues .read a e, p.failRead a e)
  | .fail .write a e => (.queues .write a e, p.failWrite a e)
  | .setValue a value => (.sets a value, p.setValue a value)
  | .beginRead a => (.begins a, p.beginRead a)
  | .finishRead a => (.answers .read a (p.finishRead a).1, (p.finishRead a).2)
  | .write a value => (.answers .write a (p.write a value).1, (p.write a value).2)
  | .clearLog => (.clears, { p with readLog := [] })

def after (p : Pump) : List Act → Pump
  | [] => p
  | act :: acts => (p.perform act).2.after acts

def history (p : Pump) : List Act → List Entry
  | [] => []
  | act :: acts => (p.perform act).1 :: (p.perform act).2.history acts

-- The failures that are still to come.
def due (p : Pump) : Direction → Address → List FetchError
  | .read, a => (p.readFaults.get? a).getD []
  | .write, a => (p.writeFaults.get? a).getD []

-- What an entry makes of the failures that are due. One that is queued comes last. A call takes the
-- first one with it, whatever it returns.
def dueNext (d : Direction) (a : Address) (due : List FetchError) : Entry → List FetchError
  | .queues d' b e => if d' = d ∧ b = a then due ++ [e] else due
  | .answers d' b _ => if d' = d ∧ b = a then due.tail else due
  | _ => due

def dueAfter (d : Direction) (a : Address) (due : List FetchError) (entries : List Entry) :
    List FetchError :=
  entries.foldl (dueNext d a) due

def queued (d : Direction) (a : Address) : Entry → List FetchError
  | .queues d' b e => if d' = d ∧ b = a then [e] else []
  | _ => []

-- The error that a call returned while something was due.
def taken (d : Direction) (a : Address) : List FetchError → Entry → List FetchError
  | _ :: _, .answers d' b (.error e) => if d' = d ∧ b = a then [e] else []
  | _, _ => []

def takenIn (d : Direction) (a : Address) (due : List FetchError) : List Entry → List FetchError
  | [] => []
  | entry :: entries => taken d a due entry ++ takenIn d a (dueNext d a due entry) entries

-- A coil has the value that it was given last, by the device or by a write that was acknowledged.
-- An address without a coil is given none.
def valueNext (a : Address) (value : Option CoilValue) : Entry → Option CoilValue
  | .sets b new => if b = a then value.map fun _ => new else value
  | .answers .write b (.ok new) => if b = a then some new else value
  | _ => value

def valueAfter (a : Address) (value : Option CoilValue) (entries : List Entry) : Option CoilValue :=
  entries.foldl (valueNext a) value

-- What a write comes to that no script fails.
def verdict (coil : Option Coil) (a : Address) (value : CoilValue) : FetchResult CoilValue :=
  match coil with
  | none => .error (.notFound a)
  | some coil => if coil.writable then .ok value else .error (readOnly a)

-- How a pump stands to its script for one address, after anything that was done to it.
structure Follows (p : Pump) (acts : List Act) (a : Address) : Prop where
  due : ∀ d, (p.after acts).due d a = dueAfter d a (p.due d a) (p.history acts)
  -- nothing is lost, returned twice or out of turn
  conserved : ∀ d, takenIn d a (p.due d a) (p.history acts) ++ (p.after acts).due d a =
    p.due d a ++ (p.history acts).flatMap (queued d a)
  value : (p.after acts).value? a = valueAfter a (p.value? a) (p.history acts)
  -- what the next read that comes to its end returns
  reads : ((p.after acts).finishRead a).1 =
    match (p.after acts).due .read a, (p.after acts).value? a with
    | e :: _, _ => .error e
    | [], some value => .ok value
    | [], none => .error (.notFound a)
  -- what the next write returns
  writes : ∀ value, ((p.after acts).write a value).1 =
    match (p.after acts).due .write a with
    | e :: _ => .error e
    | [] => verdict (p.coil? a) a value
  -- a read that never ends
  abandoned : ∀ b d, ((p.after acts).beginRead b).due d a = (p.after acts).due d a
  reading : ∀ b, ((p.after acts).finishRead b).2.value? a = (p.after acts).value? a
  refused : ∀ b value e, ((p.after acts).write b value).1 = .error e →
    ((p.after acts).write b value).2.value? a = (p.after acts).value? a

variable {p : Pump} {d : Direction} {a b : Address} {e : FetchError} {rest : List FetchError}
  {value : CoilValue}

theorem get?_insert_getD (faults : AddressMap (List FetchError)) (a b : Address)
    (l : List FetchError) :
    ((faults.insert b l).get? a).getD [] = if b = a then l else (faults.get? a).getD [] := by
  rw [AddressMap.get?_insert]
  by_cases h : a = b
  · simp [h]
  · simp [h, Ne.symm h]

theorem takeFault_of_nil {faults : AddressMap (List FetchError)}
    (h : (faults.get? a).getD [] = []) : takeFault faults a = none := by
  cases hget : faults.get? a with
  | none => simp [takeFault, hget]
  | some l => simp_all [takeFault]

theorem takeFault_of_cons {faults : AddressMap (List FetchError)}
    (h : (faults.get? a).getD [] = e :: rest) :
    takeFault faults a = some (e, faults.insert a rest) := by
  cases hget : faults.get? a with
  | none => simp [hget] at h
  | some l => simp_all [takeFault]

theorem due_fail (p : Pump) (d d' : Direction) (a b : Address) (e : FetchError) :
    (p.perform (.fail d' b e)).2.due d a =
      if d' = d ∧ b = a then p.due d a ++ [e] else p.due d a := by
  by_cases h : b = a
  · subst h
    cases d' <;> cases d <;> simp [perform, failRead, failWrite, due, queue, get?_insert_getD]
  · cases d' <;> cases d <;> simp [perform, failRead, failWrite, due, queue, get?_insert_getD, h]

theorem due_setValue (p : Pump) (d : Direction) (a b : Address) (value : CoilValue) :
    (p.setValue b value).due d a = p.due d a := by
  unfold setValue
  split <;> cases d <;> rfl

theorem finishRead_of_cons (h : p.due .read a = e :: rest) :
    p.finishRead a = (.error e, { p with readFaults := p.readFaults.insert a rest }) := by
  simp only [finishRead, takeFault_of_cons h]

theorem finishRead_of_nil (h : p.due .read a = []) :
    p.finishRead a =
      (match p.value? a with
        | some value => .ok value
        | none => .error (.notFound a), p) := by
  simp only [finishRead, takeFault_of_nil h]
  cases p.value? a <;> rfl

theorem write_of_cons (h : p.due .write a = e :: rest) :
    p.write a value = (.error e, { p with writeFaults := p.writeFaults.insert a rest }) := by
  simp only [write, takeFault_of_cons h]

theorem write_of_nil (h : p.due .write a = []) :
    p.write a value =
      (verdict (p.coil? a) a value,
        match verdict (p.coil? a) a value with
        | .ok _ => p.setValue a value
        | .error _ => p) := by
  simp only [write, takeFault_of_nil h, verdict]
  cases p.coil? a with
  | none => rfl
  | some coil => cases hw : coil.writable <;> simp [hw]

theorem due_finishRead (p : Pump) (d : Direction) (a b : Address) :
    (p.finishRead b).2.due d a = if .read = d ∧ b = a then (p.due d a).tail else p.due d a := by
  cases hdue : p.due .read b with
  | nil =>
    rw [finishRead_of_nil hdue]
    by_cases h : .read = d ∧ b = a
    · obtain ⟨rfl, rfl⟩ := h
      simp [hdue]
    · rw [if_neg h]
  | cons e rest =>
    rw [finishRead_of_cons hdue]
    cases d with
    | read =>
      simp only [due, get?_insert_getD, true_and] at hdue ⊢
      split
      · next h => rw [← h, hdue, List.tail_cons]
      · rfl
    | write => simp [due]

theorem due_write (p : Pump) (d : Direction) (a b : Address) (value : CoilValue) :
    (p.write b value).2.due d a = if .write = d ∧ b = a then (p.due d a).tail else p.due d a := by
  cases hdue : p.due .write b with
  | nil =>
    have hsame : (p.write b value).2.due d a = p.due d a := by
      rw [write_of_nil hdue]
      cases verdict (p.coil? b) b value with
      | ok _ => exact due_setValue p d a b value
      | error _ => rfl
    rw [hsame]
    by_cases h : .write = d ∧ b = a
    · obtain ⟨rfl, rfl⟩ := h
      simp [hdue]
    · rw [if_neg h]
  | cons e rest =>
    rw [write_of_cons hdue]
    cases d with
    | read => simp [due]
    | write =>
      simp only [due, get?_insert_getD, true_and] at hdue ⊢
      split
      · next h => rw [← h, hdue, List.tail_cons]
      · rfl

theorem due_perform (p : Pump) (act : Act) (d : Direction) (a : Address) :
    (p.perform act).2.due d a = dueNext d a (p.due d a) (p.perform act).1 := by
  cases act with
  | fail d' b e => cases d' <;> exact due_fail p d _ a b e
  | setValue b value => exact due_setValue p d a b value
  | beginRead b => cases d <;> rfl
  | finishRead b => exact due_finishRead p d a b
  | write b value => exact due_write p d a b value
  | clearLog => cases d <;> rfl

theorem coils_finishRead (p : Pump) (a : Address) : (p.finishRead a).2.coils = p.coils := by
  cases hdue : p.due .read a with
  | nil => rw [finishRead_of_nil hdue]
  | cons e rest => rw [finishRead_of_cons hdue]

-- A write that fails changes no coil, and one that does not puts its value there.
theorem coils_write (p : Pump) (a : Address) (value : CoilValue) :
    (∃ e, (p.write a value).1 = .error e ∧ (p.write a value).2.coils = p.coils) ∨
      (∃ coil, p.coil? a = some coil ∧ (p.write a value).1 = .ok value ∧
        (p.write a value).2 = p.setValue a value) := by
  cases hdue : p.due .write a with
  | cons e rest => exact .inl ⟨e, by simp [write_of_cons hdue]⟩
  | nil =>
    rw [write_of_nil hdue]
    cases hcoil : p.coil? a with
    | none => exact .inl ⟨_, rfl, rfl⟩
    | some coil =>
      by_cases hw : coil.writable = true
      · exact .inr ⟨coil, rfl, by simp [verdict, hw]⟩
      · exact .inl ⟨readOnly a, by simp [verdict, hw]⟩

theorem value?_of_coils {p' : Pump} (h : p'.coils = p.coils) : p'.value? a = p.value? a := by
  simp [value?, h]

theorem coil?_of_coils {p' : Pump} (h : p'.coils = p.coils) : p'.coil? a = p.coil? a := by
  simp [coil?, h]

theorem isSome_value? (p : Pump) (a : Address) : (p.value? a).isSome = (p.coil? a).isSome := by
  simp [value?, coil?]

theorem value?_perform (p : Pump) (act : Act) (a : Address) :
    (p.perform act).2.value? a = valueNext a (p.value? a) (p.perform act).1 := by
  cases act with
  | fail d b e => cases d <;> rfl
  | beginRead b => rfl
  | clearLog => rfl
  | finishRead b => exact value?_of_coils (coils_finishRead p b)
  | setValue b value =>
    rw [perform, value?_setValue, ← isSome_value?]
    simp only [valueNext]
    by_cases h : b = a
    · subst h
      cases p.value? b <;> simp
    · simp [h, Ne.symm h]
  | write b value =>
    rw [perform]
    obtain ⟨e, herror, hcoils⟩ | ⟨coil, hcoil, hok, hset⟩ := coils_write p b value
    · simp [valueNext, herror, value?_of_coils hcoils]
    · rw [hset, hok, value?_setValue, hcoil]
      simp only [valueNext, Option.isSome_some, and_true, eq_comm]

theorem coil?_perform (p : Pump) (act : Act) (a : Address) :
    (p.perform act).2.coil? a = p.coil? a := by
  cases act with
  | fail d b e => cases d <;> rfl
  | beginRead b => rfl
  | clearLog => rfl
  | finishRead b => exact coil?_of_coils (coils_finishRead p b)
  | setValue b value => exact coil?_setValue p b a value
  | write b value =>
    obtain ⟨e, -, hcoils⟩ | ⟨coil, -, -, hset⟩ := coils_write p b value
    · exact coil?_of_coils hcoils
    · rw [perform, hset, coil?_setValue]

-- A call that returns the failure which is due takes it out of the script.
theorem taken_answers {d' : Direction} {result : FetchResult CoilValue} {due : List FetchError}
    (h : d' = d → b = a → ∀ e rest, due = e :: rest → result = .error e) :
    taken d a due (.answers d' b result) ++ dueNext d a due (.answers d' b result) = due := by
  by_cases hmine : d' = d ∧ b = a
  · cases due with
    | nil => simp [taken, dueNext]
    | cons e rest =>
      obtain rfl := h hmine.1 hmine.2 e rest rfl
      simp [taken, dueNext, hmine]
  · cases due with
    | nil => simp [taken, dueNext]
    | cons e rest => cases result <;> simp [taken, dueNext, hmine]

theorem taken_perform (p : Pump) (act : Act) (d : Direction) (a : Address) :
    taken d a (p.due d a) (p.perform act).1 ++ (p.perform act).2.due d a =
      p.due d a ++ queued d a (p.perform act).1 := by
  rw [due_perform]
  cases act with
  | fail d' b e =>
    cases d' <;> cases p.due d a <;> simp only [perform, taken, dueNext, queued] <;> split <;> simp
  | setValue b value => cases p.due d a <;> simp [perform, taken, dueNext, queued]
  | beginRead b => cases p.due d a <;> simp [perform, taken, dueNext, queued]
  | clearLog => cases p.due d a <;> simp [perform, taken, dueNext, queued]
  | finishRead b =>
    simp only [perform, queued, List.append_nil]
    refine taken_answers ?_
    rintro rfl rfl e rest hdue
    rw [finishRead_of_cons hdue]
  | write b value =>
    simp only [perform, queued, List.append_nil]
    refine taken_answers ?_
    rintro rfl rfl e rest hdue
    rw [write_of_cons hdue]

theorem due_after (p : Pump) (acts : List Act) (d : Direction) (a : Address) :
    (p.after acts).due d a = dueAfter d a (p.due d a) (p.history acts) := by
  induction acts generalizing p with
  | nil => rfl
  | cons act acts ih =>
    rw [after, ih, due_perform]
    rfl

theorem value?_after (p : Pump) (acts : List Act) (a : Address) :
    (p.after acts).value? a = valueAfter a (p.value? a) (p.history acts) := by
  induction acts generalizing p with
  | nil => rfl
  | cons act acts ih =>
    rw [after, ih, value?_perform]
    rfl

theorem coil?_after (p : Pump) (acts : List Act) (a : Address) :
    (p.after acts).coil? a = p.coil? a := by
  induction acts generalizing p with
  | nil => rfl
  | cons act acts ih => rw [after, ih, coil?_perform]

theorem takenIn_after (p : Pump) (acts : List Act) (d : Direction) (a : Address) :
    takenIn d a (p.due d a) (p.history acts) ++ (p.after acts).due d a =
      p.due d a ++ (p.history acts).flatMap (queued d a) := by
  induction acts generalizing p with
  | nil => simp [takenIn, history, after]
  | cons act acts ih =>
    rw [history, takenIn, ← due_perform, after, List.append_assoc, ih, ← List.append_assoc,
      taken_perform, List.flatMap_cons, List.append_assoc]

-- Whatever is done to a pump and in whatever order, each failure that is queued for an address goes out to one
-- call there, in the order in which they came in. As long as one of them is left nothing else is returned, and
-- apart from that the pump is a memory.
theorem script_followed (p : Pump) (acts : List Act) (a : Address) : Follows p acts a where
  due d := due_after p acts d a
  conserved d := takenIn_after p acts d a
  value := value?_after p acts a
  reads := by
    cases hdue : (p.after acts).due .read a with
    | nil =>
      rw [finishRead_of_nil hdue]
      cases (p.after acts).value? a <;> rfl
    | cons e rest => rw [finishRead_of_cons hdue]
  writes value := by
    cases hdue : (p.after acts).due .write a with
    | nil => rw [write_of_nil hdue, coil?_after]
    | cons e rest => rw [write_of_cons hdue]
  abandoned b d := by cases d <;> rfl
  reading b := value?_of_coils (coils_finishRead _ b)
  refused b value e h := by
    obtain ⟨-, -, hcoils⟩ | ⟨coil, -, hok, -⟩ := coils_write (p.after acts) b value
    · exact value?_of_coils hcoils
    · rw [hok] at h
      cases h

end Pump

end CoilHub

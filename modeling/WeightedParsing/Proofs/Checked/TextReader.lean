import WeightedParsing.Grammar.Spec
import WeightedParsing.Proofs.Checked.SpanTable

/-!
# Reading with checks

A text may be cut only where one of its characters begins, and a loop over a text ends only
if each turn leaves less of it.  A reader checks both and stops with the fault that it meets.
It also notes what it comes past: the rests that it cuts off, the turns of its loops, the
words that it takes out of their quotes and the weights that it sets.

A reader reads a text with some result if it meets no fault there, whatever the text is a
rest of, if all that it notes is sound and if it leaves a rest of the text.
-/

namespace WeightedParsing

/-- What a reader stops at. -/
inductive ReadFault where
  | basic (fault : Fault)
  | offBoundary (offset : Nat) (text : String)
  | backwards (first last : Nat)
  /-- A turn of a loop that does not leave less than there was. -/
  | stalled (before after : String)
  | notNumber (text : String)
  | leftOver (rest : String)

/-- What a reader notes. -/
inductive ReadEvent where
  | left (rest : String)
  | turn (before after : String)
  | unquoted (word : String)
  | weighed (weight : Float)

/-- What stands after one of the positions of an input, which are the places where its
characters begin, and its end. -/
def IsRest (input rest : String) : Prop :=
  ∃ position : input.Pos, (input.sliceFrom position).copy = rest

def ReadEvent.Sound (input : String) : ReadEvent → Prop
  | left rest => IsRest input rest
  | turn before after => after.toList <:+ before.toList ∧ after.length < before.length
  | unquoted word => word ≠ ""
  | weighed weight => weight.isFinite = true ∧ Ranked.le 0 weight = true

theorem isRest_iff {input rest : String} :
    IsRest input rest ↔ ∃ front, input = front ++ rest := by
  constructor
  · rintro ⟨position, rfl⟩
    exact ⟨_, position.splits.eq_append⟩
  · rintro ⟨front, rfl⟩
    exact ⟨_, ((String.Pos.splits _).eq String.Pos.splits_append_rawEndPos).2⟩

theorem isRest_self (input : String) : IsRest input input :=
  isRest_iff.mpr ⟨"", String.empty_append.symm⟩

theorem IsRest.of_suffix {input : String} {text rest : List Char}
    (h : IsRest input (String.ofList text)) (hrest : rest <:+ text) :
    IsRest input (String.ofList rest) := by
  obtain ⟨front, hfront⟩ := isRest_iff.mp h
  obtain ⟨passed, rfl⟩ := hrest
  rw [String.ofList_append, ← String.append_assoc] at hfront
  exact isRest_iff.mpr ⟨_, hfront⟩

/-! ## Cutting texts -/

/-- The two parts of a text before and after a number of bytes, which may not end within a
character. -/
def cutAt (offset : Nat) (text : String) : Except ReadFault (String × String) :=
  if h : String.Pos.Raw.IsValid text ⟨offset⟩ then
    .ok ((text.sliceTo (text.pos ⟨offset⟩ h)).copy,
      (text.sliceFrom (text.pos ⟨offset⟩ h)).copy)
  else .error (.offBoundary offset text)

/-- The part of a text between two numbers of bytes. -/
def slice (first last : Nat) (text : String) : Except ReadFault String :=
  if last < first then .error (.backwards first last)
  else do
    let (upTo, _) ← cutAt last text
    let (_, middle) ← cutAt first upTo
    return middle

theorem cutAt_append (front rest : String) :
    cutAt front.utf8ByteSize (front ++ rest) = .ok (front, rest) := by
  have hsplits := String.Pos.splits_append_rawEndPos (s := front) (t := rest)
  obtain ⟨hfront, hrest⟩ := (String.Pos.splits _).eq hsplits
  have hvalid : String.Pos.Raw.IsValid (front ++ rest) ⟨front.utf8ByteSize⟩ :=
    String.Pos.Raw.isValid_iff_exists_append.mpr ⟨front, rest, rfl, rfl⟩
  rw [cutAt, dif_pos hvalid]
  exact congrArg Except.ok (Prod.ext hfront hrest)

example : cutAt 1 "é" = .error (.offBoundary 1 "é") := dif_neg (by decide)

theorem slice_append (front middle back : String) :
    slice front.utf8ByteSize (front ++ middle).utf8ByteSize (front ++ middle ++ back) =
      .ok middle := by
  have hforward : ¬ (front ++ middle).utf8ByteSize < front.utf8ByteSize := by
    rw [String.utf8ByteSize_append]
    omega
  rw [slice, if_neg hforward, cutAt_append]
  dsimp only [bind, Except.bind]
  rw [cutAt_append]
  rfl

/-! ## Readers -/

abbrev TextReader (α : Type) : Type :=
  ExceptT GrammarError (StateT (List ReadEvent) (Except ReadFault)) α

namespace TextReader

variable {α β : Type} {input : String}

def perform (reader : TextReader α) (events : List ReadEvent) :
    Except ReadFault (Except GrammarError α × List ReadEvent) :=
  reader.run.run events

def note (event : ReadEvent) : TextReader Unit := modify (· ++ [event])

def attempt (computed : Except ReadFault α) : TextReader α := liftM computed

def check (computed : Checked α) : TextReader α := attempt (computed.mapError .basic)

/-- A reader gives a result without a fault, and the events that it adds are sound. -/
def Gives (input : String) (reader : TextReader α) (result : Except GrammarError α) : Prop :=
  ∀ noted, ∃ events, reader.perform noted = .ok (result, noted ++ events) ∧
    ∀ event ∈ events, event.Sound input

theorem perform_bind (reader : TextReader α) (next : α → TextReader β) (noted : List ReadEvent) :
    (reader >>= next).perform noted =
      reader.perform noted >>= fun after =>
        (ExceptT.bindCont next after.1).run after.2 := rfl

theorem gives_pure (input : String) (a : α) : Gives input (pure a) (.ok a) := by
  intro noted
  refine ⟨[], ?_, List.forall_mem_nil _⟩
  rw [List.append_nil]
  rfl

theorem gives_throw (input : String) (e : GrammarError) :
    Gives input (throw e : TextReader α) (.error e) := by
  intro noted
  refine ⟨[], ?_, List.forall_mem_nil _⟩
  rw [List.append_nil]
  rfl

theorem gives_note {event : ReadEvent} (h : event.Sound input) :
    Gives input (note event) (.ok ()) :=
  fun _ => ⟨[event], rfl, by simpa using h⟩

theorem gives_attempt {computed : Except ReadFault α} {a : α} (h : computed = .ok a) :
    Gives input (attempt computed) (.ok a) := by
  subst h
  exact gives_pure input a

theorem gives_check {computed : Checked α} {a : α} (h : computed = .ok a) :
    Gives input (check computed) (.ok a) := by
  subst h
  exact gives_pure input a

theorem Gives.bind_ok {reader : TextReader α} {next : α → TextReader β} {a : α}
    {result : Except GrammarError β} (h : reader.Gives input (.ok a))
    (hnext : (next a).Gives input result) : (reader >>= next).Gives input result := by
  intro noted
  obtain ⟨before, hbefore, hsound⟩ := h noted
  obtain ⟨after, hafter, hsound'⟩ := hnext (noted ++ before)
  refine ⟨before ++ after, ?_, List.forall_mem_append.mpr ⟨hsound, hsound'⟩⟩
  rw [perform_bind, hbefore, ← List.append_assoc]
  exact hafter

theorem Gives.bind_error {reader : TextReader α} {next : α → TextReader β} {e : GrammarError}
    (h : reader.Gives input (.error e)) : (reader >>= next).Gives input (.error e) := by
  intro noted
  obtain ⟨events, hevents, hsound⟩ := h noted
  refine ⟨events, ?_, hsound⟩
  rw [perform_bind, hevents]
  rfl

theorem Gives.bind {reader : TextReader α} {next : α → TextReader β}
    {result : Except GrammarError α} {f : α → Except GrammarError β}
    (h : reader.Gives input result)
    (hnext : ∀ a, result = .ok a → (next a).Gives input (f a)) :
    (reader >>= next).Gives input (result >>= f) := by
  cases result with
  | ok a => exact h.bind_ok (hnext a rfl)
  | error => exact h.bind_error

/-! ## Reading off the front of a text -/

/-- A reader on a text gives a result and a rest of the text. -/
def Reads (input : String) (text : List Char) (reader : TextReader (α × String))
    (result : Except GrammarError (α × List Char)) : Prop :=
  IsRest input (String.ofList text) →
    reader.Gives input ((fun found => (found.1, String.ofList found.2)) <$> result) ∧
      ∀ found, result = .ok found → found.2 <:+ text

section Reads

variable {text rest : List Char}

theorem reads_pure (input : String) (text : List Char) (a : α) :
    Reads input text (pure (a, String.ofList text)) (.ok (a, text)) := by
  refine fun _ => ⟨gives_pure input _, ?_⟩
  rintro _ ⟨⟩
  exact List.suffix_refl text

theorem reads_throw (input : String) (text : List Char) (e : GrammarError) :
    Reads input text (throw e : TextReader (α × String)) (.error e) :=
  fun _ => ⟨gives_throw input e, fun _ h => nomatch h⟩

theorem Reads.bind_ok {reader : TextReader (α × String)}
    {next : α × String → TextReader (β × String)} {a : α}
    {result : Except GrammarError (β × List Char)}
    (h : Reads input text reader (.ok (a, rest)))
    (hnext : Reads input rest (next (a, String.ofList rest)) result) :
    Reads input text (reader >>= next) result := by
  intro hinput
  obtain ⟨hgives, hsuffix⟩ := h hinput
  have hrest := hsuffix _ rfl
  obtain ⟨hgives', hsuffix'⟩ := hnext (hinput.of_suffix hrest)
  exact ⟨hgives.bind_ok hgives', fun found hfound => (hsuffix' found hfound).trans hrest⟩

theorem Reads.bind_error {reader : TextReader (α × String)}
    {next : α × String → TextReader (β × String)} {e : GrammarError}
    (h : Reads input text reader (.error e)) :
    Reads input text (reader >>= next) (.error e) :=
  fun hinput => ⟨(h hinput).1.bind_error, fun _ h => nomatch h⟩

theorem Reads.bind_map {γ : Type} {reader : TextReader (α × String)}
    {next : α × String → TextReader (β × String)} {scan : Except GrammarError γ}
    {parts : γ → α × List Char} {f : γ → Except GrammarError (β × List Char)}
    (h : Reads input text reader (parts <$> scan))
    (hnext : ∀ found, Reads input (parts found).2
      (next ((parts found).1, String.ofList (parts found).2)) (f found)) :
    Reads input text (reader >>= next) (scan >>= f) := by
  cases scan with
  | error => exact h.bind_error
  | ok found => exact h.bind_ok (hnext found)

/-- What is computed in between leaves the text alone. -/
theorem Gives.bind_reads {reader : TextReader α} {next : α → TextReader (β × String)} {a : α}
    {result : Except GrammarError (β × List Char)} (h : reader.Gives input (.ok a))
    (hnext : Reads input text (next a) result) :
    Reads input text (reader >>= next) result :=
  fun hinput => ⟨h.bind_ok (hnext hinput).1, (hnext hinput).2⟩

end Reads

/-- What matches at the front of a text, if anything does. -/
abbrev Pattern := List Char → Option (List Char)

def literal (chars : List Char) : Pattern := fun text =>
  if chars <+: text then some chars else none

/-- Reads what matches a pattern, if something does. -/
def optional (pattern : Pattern) (text : String) : TextReader (Option String × String) :=
  match pattern text.toList with
  | none => return (none, text)
  | some matched => do
      let (found, rest) ← attempt (cutAt (String.ofList matched).utf8ByteSize text)
      note (.left rest)
      return (some found, rest)

/-- Reads what matches a pattern, as something has to. -/
def needed (pattern : Pattern) (missing : List Char → GrammarError) (text : String) :
    TextReader (String × String) := do
  match ← optional pattern text with
  | (some found, rest) => return (found, rest)
  | (none, rest) => throw (missing rest.toList)

section Patterns

variable {pattern : Pattern} {missing : List Char → GrammarError} {text rest : List Char}

theorem reads_optional_some {matched : List Char} (h : pattern text = some matched)
    (htext : text = matched ++ rest) :
    Reads input text (optional pattern (String.ofList text))
      (.ok (some (String.ofList matched), rest)) := by
  subst htext
  intro hinput
  have hrest := List.suffix_append matched rest
  have hleft : (ReadEvent.left (String.ofList rest)).Sound input := hinput.of_suffix hrest
  have hcut : cutAt (String.ofList matched).utf8ByteSize
      (String.ofList (matched ++ rest)) = .ok (String.ofList matched, String.ofList rest) := by
    rw [String.ofList_append]
    exact cutAt_append _ _
  constructor
  · unfold optional
    rw [String.toList_ofList, h]
    exact (gives_attempt hcut).bind_ok
      ((gives_note hleft).bind_ok (gives_pure input _))
  · rintro _ ⟨⟩
    exact hrest

theorem reads_optional_none (h : pattern text = none) :
    Reads input text (optional pattern (String.ofList text)) (.ok (none, text)) := by
  unfold optional
  rw [String.toList_ofList, h]
  exact reads_pure input text none

theorem reads_needed_some {matched : List Char} (h : pattern text = some matched)
    (htext : text = matched ++ rest) :
    Reads input text (needed pattern missing (String.ofList text))
      (.ok (String.ofList matched, rest)) :=
  (reads_optional_some h htext).bind_ok (reads_pure input rest _)

theorem reads_needed_none (h : pattern text = none) :
    Reads input text (needed pattern missing (String.ofList text))
      (.error (missing text)) := by
  refine (reads_optional_none h).bind_ok ?_
  dsimp only
  rw [String.toList_ofList]
  exact reads_throw input text _

end Patterns

/-! ## Loops -/

/-- Takes turns until one reads nothing. -/
def loop (turn : String → TextReader (Option α × String)) (before : String) (items : List α) :
    TextReader (List α × String) := do
  match ← turn before with
  | (none, rest) => return (items, rest)
  | (some item, after) =>
      -- Nothing is known of the turn, so that the loop ends only because of this check.
      if _h : after.length < before.length then do
        note (.turn before after)
        loop turn after (items ++ [item])
      else attempt (.error (.stalled before after))
termination_by before.length

section Loops

variable {turn : String → TextReader (Option α × String)} {text rest : List Char}
  {items : List α}

theorem reads_loop_done
    (h : Reads input text (turn (String.ofList text)) (.ok (none, rest))) :
    Reads input text (loop turn (String.ofList text) items) (.ok (items, rest)) := by
  rw [loop]
  exact h.bind_ok (reads_pure input rest items)

theorem reads_loop_error {e : GrammarError}
    (h : Reads input text (turn (String.ofList text)) (.error e)) :
    Reads input text (loop turn (String.ofList text) items) (.error e) := by
  rw [loop]
  exact h.bind_error

theorem reads_loop_next {item : α} {result : Except GrammarError (List α × List Char)}
    (h : Reads input text (turn (String.ofList text)) (.ok (some item, rest)))
    (hrest : rest.length < text.length)
    (hnext : Reads input rest (loop turn (String.ofList rest) (items ++ [item])) result) :
    Reads input text (loop turn (String.ofList text) items) result := by
  intro hinput
  have hsuffix := (h hinput).2 _ rfl
  have hshorter : (String.ofList rest).length < (String.ofList text).length := by
    rwa [String.length_ofList, String.length_ofList]
  have hturn : (ReadEvent.turn (String.ofList text) (String.ofList rest)).Sound input := by
    refine ⟨?_, hshorter⟩
    rwa [String.toList_ofList, String.toList_ofList]
  rw [loop]
  refine h.bind_ok ?_ hinput
  dsimp only
  rw [dif_pos hshorter]
  exact (gives_note hturn).bind_reads hnext

/-- What a loop reads after its first turn goes behind the item of that turn. -/
theorem reads_loop_cons {γ : Type} {item : α} {found : Except GrammarError γ}
    {value : γ → List α} {left : γ → List Char}
    (h : Reads input text (turn (String.ofList text)) (.ok (some item, rest)))
    (hrest : rest.length < text.length)
    (hnext : ∀ items, Reads input rest (loop turn (String.ofList rest) items)
      ((fun c => (items ++ value c, left c)) <$> found)) (items : List α) :
    Reads input text (loop turn (String.ofList text) items)
      ((fun c => (items ++ item :: value c, left c)) <$> found) := by
  have hitems := hnext (items ++ [item])
  simp only [List.append_assoc, List.singleton_append] at hitems
  exact reads_loop_next h hrest hitems

end Loops

end TextReader

end WeightedParsing

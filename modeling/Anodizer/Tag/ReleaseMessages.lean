import Anodizer.Lib.Squeeze
import Anodizer.Lib.Words
import Anodizer.Tag.BumpDetect

/-! # The messages of a release

A commit stands for its own message and, where squash merges are expanded, for the subjects its
body lists. One reader of the history asks git for the subject and the body of a commit apart,
another for the message as a whole, which it cuts at the first newline.
-/

namespace Anodizer.Tag

open Regex
open Template (Text CharTables isWhitespace)
open Git

/-! ### Squash merges -/

/-- A bullet whose text is a conventional subject. -/
def squashedSubjectRe : Re :=
  .cat [.textStart, .star true (.char isWhitespace), .char (fun c => c == '*' || c == '-'),
    .plus true (.char isWhitespace),
    .group "1" (.cat [.plus true (.char Char.isAlpha),
      .opt (.cat [.lit "(", .star true (.char (· != ')')), .lit ")"]), .opt (.lit "!"), .lit ":",
      .plus true (.char isWhitespace), .char (fun c => !isWhitespace c),
      .star true notNewline]),
    .textEnd]

section Messages

variable (u : CharTables)

def prNumberSuffixRe : Re :=
  .cat [.star true (.char isWhitespace), .lit "(#", digitsRe u, .lit ")", .textEnd]

/-- A subject without the number of its pull request. -/
def withoutPrNumber (subject : Text) : Text :=
  let subject := Template.trim subject
  match findAt (prNumberSuffixRe u) subject 0 with
  | some (start, _) => (subject.take start).rdropWhile isWhitespace
  | none => subject

def squashedSubjects (subject body : Text) : List Text :=
  let title := withoutPrNumber u subject
  ((Lines.lines body).filterMap fun line =>
    (matchStart squashedSubjectRe line).map fun caps =>
      (caps.get "1").rdropWhile isWhitespace).filter fun bullet => withoutPrNumber u bullet ≠ title

def messagesWithSquashed (subject body : Text) (expandSquashMerges : Bool) : List Text :=
  let own := if Template.trim body = [] then subject else subject ++ "\n\n".toList ++ body
  own :: if expandSquashMerges then squashedSubjects u subject body else []

/-! ### Reading the log -/

def tokenPairs : List Text → List (Text × Text)
  | s :: b :: rest => (s, b) :: tokenPairs rest
  | _ => []

/-- The messages of a log that prints subjects and bodies, each closed by a NUL. -/
def releaseMessages (output : Text) (expandSquashMerges : Bool) : List Text :=
  (tokenPairs (output.splitOn '\x00')).flatMap fun (subject, body) =>
    messagesWithSquashed u (Template.trim subject) (Template.trim body) expandSquashMerges

def messageOfWhole (message : Text) (expandSquashMerges : Bool) : List Text :=
  let (subject, body) := (splitOnce '\n' message).getD (message, [])
  messagesWithSquashed u (Template.trim subject) (Template.trim body) expandSquashMerges

/-- The messages of a log that prints whole messages, each closed by a NUL. -/
def logSubjects (output : Text) (expandSquashMerges : Bool) : List Text :=
  (((output.splitOn '\x00').map Template.trim).filter (· ≠ [])).flatMap
    (messageOfWhole u · expandSquashMerges)

end Messages

/-! ### What git prints -/

/-- A message of a commit. -/
structure LoggedCommit where
  message : Text
  noNul : '\x00' ∉ message

def isGitSpace (c : Char) : Bool := c == ' ' || c == '\t' || c == '\n' || c == '\r'

def isBlankLine (line : Text) : Bool := line.all isGitSpace

/-- The lines of a message, from the first that is not blank. -/
def messageLines (message : Text) : List Text := (message.splitOn '\n').dropWhile isBlankLine

def firstParagraph (message : Text) : List Text :=
  (messageLines message).takeWhile (!isBlankLine ·)

/-- The first paragraph, its lines joined by spaces. -/
def subjectOf (message : Text) : Text :=
  [' '].intercalate ((firstParagraph message).map (·.rdropWhile isGitSpace))

/-- What follows the first paragraph. -/
def bodyOf (message : Text) : Text :=
  ['\n'].intercalate (((messageLines message).dropWhile (!isBlankLine ·)).dropWhile isBlankLine)

def logApart (commits : List LoggedCommit) : Text :=
  ['\n'].intercalate (commits.map fun c =>
    subjectOf c.message ++ '\x00' :: (bodyOf c.message ++ ['\x00']))

def logWhole (commits : List LoggedCommit) : Text :=
  ['\n'].intercalate (commits.map fun c => c.message ++ ['\x00'])

/-! ### What the readers make of a commit -/

section Readers

variable (u : CharTables) (expand : Bool)

def apartMessages (message : Text) : List Text :=
  messagesWithSquashed u (Template.trim (subjectOf message)) (Template.trim (bodyOf message)) expand

def wholeMessages (message : Text) : List Text :=
  if Template.trim message = [] then [] else messageOfWhole u (Template.trim message) expand

end Readers

section Trim

variable {s t : Text} {c : Char}

theorem trim_eq (s : Text) : Template.trim s = (s.dropWhile isWhitespace).rdropWhile isWhitespace :=
  rfl

theorem trim_append_left (hs : ∀ c ∈ s, isWhitespace c) :
    Template.trim (s ++ t) = Template.trim t := by
  rw [trim_eq, List.dropWhile_append_of_pos hs, trim_eq]

theorem rdropWhile_append_right {p : Char → Bool} (ht : ∀ c ∈ t, p c) :
    (s ++ t).rdropWhile p = s.rdropWhile p := by
  rw [List.rdropWhile, List.reverse_append, List.dropWhile_append_of_pos
    (by simpa using ht), List.rdropWhile]

theorem trim_of_all (hs : ∀ c ∈ s, isWhitespace c) : Template.trim s = [] := by
  rw [trim_eq, List.dropWhile_eq_nil_iff.mpr hs]
  rfl

theorem trim_append_right (ht : ∀ c ∈ t, isWhitespace c) :
    Template.trim (s ++ t) = Template.trim s := by
  rw [trim_eq, trim_eq, List.dropWhile_append]
  split
  · next h =>
    have hs : s.dropWhile isWhitespace = [] := by simpa using h
    rw [hs, List.dropWhile_eq_nil_iff.mpr ht]
  · exact rdropWhile_append_right ht

theorem dropWhile_append_cons {p : Char → Bool} (hc : p c = false) (s t : Text) :
    (s ++ c :: t).dropWhile p = s.dropWhile p ++ c :: t := by
  induction s with
  | nil => simp [hc]
  | cons d s ih =>
    rw [List.cons_append, List.dropWhile_cons, List.dropWhile_cons, ih]
    split <;> rfl

/-- A text is trimmed at both ends of a character that stays. -/
theorem trim_append_cons (hc : isWhitespace c = false) (s t : Text) :
    Template.trim (s ++ c :: t) = s.dropWhile isWhitespace ++ c :: t.rdropWhile isWhitespace := by
  rw [trim_eq, dropWhile_append_cons hc, Squeeze.rdropWhile_append_cons hc]

theorem trim_dropWhile (s : Text) : Template.trim (s.dropWhile isWhitespace) = Template.trim s := by
  rw [trim_eq, List.dropWhile_idempotent, trim_eq]

theorem trim_rdropWhile {p : Char → Bool} (hp : ∀ c, p c → isWhitespace c) (s : Text) :
    Template.trim (s.rdropWhile p) = Template.trim s := by
  have h := trim_append_right (s := s.rdropWhile p) (t := s.rtakeWhile p)
    fun c hc => hp c (List.mem_rtakeWhile_imp hc)
  rw [List.rdropWhile_append_rtakeWhile] at h
  exact h.symm

theorem trim_trim (s : Text) : Template.trim (Template.trim s) = Template.trim s := by
  have h := trim_rdropWhile (p := isWhitespace) (fun _ h => h) (s.dropWhile isWhitespace)
  rwa [trim_dropWhile] at h

theorem dropWhile_append_left {p : Char → Bool} (hs : ¬∀ c ∈ s, p c) :
    (s ++ t).dropWhile p = s.dropWhile p ++ t := by
  rw [List.dropWhile_append, if_neg]
  simpa using hs

theorem rdropWhile_append_left {p : Char → Bool} (ht : ¬∀ c ∈ t, p c) :
    (s ++ t).rdropWhile p = s ++ t.rdropWhile p := by
  have ht' : ¬∀ c ∈ t.reverse, p c := by simpa using ht
  rw [List.rdropWhile, List.reverse_append, dropWhile_append_left ht', List.reverse_append,
    List.reverse_reverse, List.rdropWhile]

theorem trim_eq_nil : Template.trim s = [] ↔ ∀ c ∈ s, isWhitespace c := by
  constructor
  · intro h
    rw [trim_eq, List.rdropWhile_eq_nil_iff] at h
    have hdrop : s.dropWhile isWhitespace = [] := by
      by_contra hne
      have hhead := List.head_dropWhile_not isWhitespace hne
      exact absurd (h _ (List.head_mem hne)) (by simp [hhead])
    exact List.dropWhile_eq_nil_iff.mp hdrop
  · exact trim_of_all

theorem trim_subset (s : Text) : Template.trim s ⊆ s := by
  intro c hc
  have hdrop : c ∈ s.dropWhile isWhitespace :=
    (List.rdropWhile_prefix isWhitespace _).sublist.mem hc
  exact (List.dropWhile_sublist _).mem hdrop

end Trim

/-! ### The log is read back -/

section Log

variable {u : CharTables} {expand : Bool} {a b rest : Text} {c d : Char} {ls : List Text}

theorem messageLines_subset (message : Text) : messageLines message ⊆ message.splitOn '\n' :=
  (List.dropWhile_sublist _).subset

theorem firstParagraph_subset (message : Text) : firstParagraph message ⊆ message.splitOn '\n' :=
  fun _ hl => messageLines_subset message ((List.takeWhile_sublist _).subset hl)

theorem nul_not_mem_subjectOf (m : LoggedCommit) : '\x00' ∉ subjectOf m.message := by
  intro h
  rcases Lines.mem_intercalate h with h | ⟨l, hl, hc⟩
  · cases h
  · obtain ⟨l', hl', rfl⟩ := List.mem_map.mp hl
    exact m.noNul (Lines.mem_of_mem_splitOn (firstParagraph_subset _ hl')
      ((List.rdropWhile_prefix _ _).sublist.mem hc))

theorem nul_not_mem_bodyOf (m : LoggedCommit) : '\x00' ∉ bodyOf m.message := by
  intro h
  rcases Lines.mem_intercalate h with h | ⟨l, hl, hc⟩
  · cases h
  · have hl' : l ∈ messageLines m.message :=
      (List.dropWhile_sublist _).subset ((List.dropWhile_sublist _).subset hl)
    exact m.noNul (Lines.mem_of_mem_splitOn (messageLines_subset _ hl') hc)

theorem splitOn_nul (ha : '\x00' ∉ a) (rest : Text) :
    (a ++ '\x00' :: rest).splitOn '\x00' = a :: rest.splitOn '\x00' := by
  rw [List.splitOn_append_cons_self, List.splitOn_eq_singleton ha]
  rfl

theorem releaseMessages_record (ha : '\x00' ∉ a) (hb : '\x00' ∉ b) (rest : Text) :
    releaseMessages u (a ++ '\x00' :: (b ++ '\x00' :: rest)) expand =
      messagesWithSquashed u (Template.trim a) (Template.trim b) expand ++
        releaseMessages u rest expand := by
  rw [releaseMessages, splitOn_nul ha, splitOn_nul hb, tokenPairs, List.flatMap_cons]
  rfl

theorem logSubjects_record (ha : '\x00' ∉ a) (rest : Text) :
    logSubjects u (a ++ '\x00' :: rest) expand =
      (if Template.trim a = [] then [] else messageOfWhole u (Template.trim a) expand) ++
        logSubjects u rest expand := by
  rw [logSubjects, splitOn_nul ha, List.map_cons]
  by_cases h : Template.trim a = []
  · rw [List.filter_cons_of_neg (by simpa using h), if_pos h]
    rfl
  · rw [List.filter_cons_of_pos (by simpa using h), if_neg h, List.flatMap_cons]
    rfl

/-- What follows a record of a log: a newline before the next one. -/
def separated (log : Text) : Text := if log = [] then [] else '\n' :: log

theorem logApart_cons (m : LoggedCommit) (ms : List LoggedCommit) : logApart (m :: ms) =
    subjectOf m.message ++ '\x00' :: (bodyOf m.message ++ '\x00' :: separated (logApart ms)) := by
  cases ms with
  | nil => simp [logApart, separated]
  | cons m' ms =>
    have hne : logApart (m' :: ms) ≠ [] := by
      unfold logApart
      cases ms <;> simp [List.intercalate_cons_cons]
    rw [separated, if_neg hne]
    simp [logApart, List.intercalate_cons_cons]

theorem logWhole_cons (m : LoggedCommit) (ms : List LoggedCommit) : logWhole (m :: ms) =
    m.message ++ '\x00' :: separated (logWhole ms) := by
  cases ms with
  | nil => simp [logWhole, separated]
  | cons m' ms =>
    have hne : logWhole (m' :: ms) ≠ [] := by
      unfold logWhole
      cases ms <;> simp [List.intercalate_cons_cons]
    rw [separated, if_neg hne]
    simp [logWhole, List.intercalate_cons_cons]

theorem newline_isWhitespace : ∀ c ∈ ['\n'], isWhitespace c := by simp [isWhitespace]

theorem isWhitespace_nul : isWhitespace '\x00' = false := by simp [isWhitespace]

/-- A log ends with a NUL, and nothing is trimmed off its end. -/
theorem rdropWhile_separated (ms : List LoggedCommit) :
    (separated (logApart ms)).rdropWhile isWhitespace = separated (logApart ms) := by
  induction ms with
  | nil => rfl
  | cons m ms ih =>
    have hne : logApart (m :: ms) ≠ [] := by
      rw [logApart_cons]
      simp
    rw [separated, if_neg hne, logApart_cons, ← List.cons_append,
      Squeeze.rdropWhile_append_cons isWhitespace_nul,
      Squeeze.rdropWhile_append_cons isWhitespace_nul, ih]

theorem releaseMessages_separated (ms : List LoggedCommit) :
    releaseMessages u (separated (logApart ms)) expand =
      ms.flatMap fun m => apartMessages u expand m.message := by
  induction ms with
  | nil => rfl
  | cons m ms ih =>
    have hne : logApart (m :: ms) ≠ [] := by
      rw [logApart_cons]
      simp
    have hnul : '\x00' ∉ ['\n'] ++ subjectOf m.message := by
      simpa using nul_not_mem_subjectOf m
    rw [separated, if_neg hne, logApart_cons]
    have hrecord : releaseMessages u _ expand = _ :=
      releaseMessages_record hnul (nul_not_mem_bodyOf m) (separated (logApart ms))
    rw [trim_append_left newline_isWhitespace, ih] at hrecord
    exact hrecord

/-- The messages of a log, which is trimmed before it is read. -/
theorem releaseMessages_logApart (ms : List LoggedCommit) :
    releaseMessages u (Template.trim (logApart ms)) expand =
      ms.flatMap fun m => apartMessages u expand m.message := by
  cases ms with
  | nil => rfl
  | cons m ms =>
    have hnul : '\x00' ∉ (subjectOf m.message).dropWhile isWhitespace := fun h =>
      nul_not_mem_subjectOf m ((List.dropWhile_sublist _).mem h)
    rw [logApart_cons, trim_append_cons isWhitespace_nul,
      Squeeze.rdropWhile_append_cons isWhitespace_nul, rdropWhile_separated,
      releaseMessages_record hnul (nul_not_mem_bodyOf m), trim_dropWhile,
      releaseMessages_separated, List.flatMap_cons]
    rfl

theorem logSubjects_separated (ms : List LoggedCommit) :
    logSubjects u (separated (logWhole ms)) expand =
      ms.flatMap fun m => wholeMessages u expand m.message := by
  induction ms with
  | nil => rfl
  | cons m ms ih =>
    have hne : logWhole (m :: ms) ≠ [] := by
      rw [logWhole_cons]
      simp
    have hnul : '\x00' ∉ ['\n'] ++ m.message := by simpa using m.noNul
    rw [separated, if_neg hne, logWhole_cons]
    have hrecord : logSubjects u _ expand = _ :=
      logSubjects_record hnul (separated (logWhole ms))
    rw [trim_append_left newline_isWhitespace, ih] at hrecord
    exact hrecord

theorem logSubjects_logWhole (ms : List LoggedCommit) :
    logSubjects u (logWhole ms) expand = ms.flatMap fun m => wholeMessages u expand m.message := by
  cases ms with
  | nil => rfl
  | cons m ms =>
    rw [logWhole_cons, logSubjects_record m.noNul, logSubjects_separated]
    rfl

end Log

/-! ### Messages that both readers understand alike -/

section Plain

variable {u : CharTables} {expand : Bool} {m s t : Text} {c : Char} {l : Text} {ls more : List Text}

/-- The first paragraph is one line, with something on it. -/
def Plain (m : Text) : Prop := ∃ l, firstParagraph m = [l] ∧ Template.trim l ≠ []

instance (m : Text) : Decidable (Plain m) :=
  match h : firstParagraph m with
  | [l] => decidable_of_iff (Template.trim l ≠ []) (by simp [Plain, h])
  | [] => isFalse (by simp [Plain, h])
  | _ :: _ :: _ => isFalse (by simp [Plain, h])

theorem isWhitespace_of_isGitSpace (c : Char) (h : isGitSpace c) : isWhitespace c := by
  simp only [isGitSpace, Bool.or_eq_true, beq_iff_eq] at h
  rcases h with ((rfl | rfl) | rfl) | rfl <;> simp [isWhitespace]

theorem isWhitespace_newline : isWhitespace '\n' := by simp [isWhitespace]

theorem isWhitespace_of_isBlankLine (h : isBlankLine l) : ∀ c ∈ l, isWhitespace c := fun c hc =>
  isWhitespace_of_isGitSpace c (List.all_eq_true.mp h c hc)

/-- The rest of a text after one of its lines. -/
def afterLine (more : List Text) : Text :=
  if more = [] then [] else '\n' :: ['\n'].intercalate more

theorem intercalate_cons_eq (l : Text) (more : List Text) :
    ['\n'].intercalate (l :: more) = l ++ afterLine more := by
  cases more with
  | nil => simp [afterLine]
  | cons l' more => simp [afterLine, List.intercalate_cons_cons]

theorem trim_afterLine (more : List Text) :
    Template.trim (afterLine more) = Template.trim (['\n'].intercalate more) := by
  unfold afterLine
  split
  · next h => rw [h, List.intercalate_nil]
  · exact trim_append_left (s := ['\n']) newline_isWhitespace

theorem trim_intercalate_cons (h : isBlankLine l) (more : List Text) :
    Template.trim (['\n'].intercalate (l :: more)) = Template.trim (['\n'].intercalate more) := by
  rw [intercalate_cons_eq, trim_append_left (isWhitespace_of_isBlankLine h), trim_afterLine]

theorem trim_intercalate_dropWhile (ls : List Text) :
    Template.trim (['\n'].intercalate (ls.dropWhile isBlankLine)) =
      Template.trim (['\n'].intercalate ls) := by
  induction ls with
  | nil => rfl
  | cons l ls ih =>
    rw [List.dropWhile_cons]
    split
    · next h => rw [ih, trim_intercalate_cons h]
    · rfl

/-- Leading blank lines do not show in a trimmed message. -/
theorem trim_message (m : Text) :
    Template.trim m = Template.trim (['\n'].intercalate (messageLines m)) := by
  rw [messageLines, trim_intercalate_dropWhile, List.intercalate_splitOn]

theorem splitOnce_append_cons (h : c ∉ s) : splitOnce c (s ++ c :: t) = some (s, t) := by
  have hs : ∀ d ∈ s, (decide (d ≠ c)) = true := by
    intro d hd
    simpa using fun heq : d = c => h (heq ▸ hd)
  rw [splitOnce, if_pos (by simp), List.takeWhile_append_of_pos hs,
    List.dropWhile_append_of_pos hs]
  simp

theorem messageOfWhole_line (h : '\n' ∉ s) :
    messageOfWhole u s expand = messagesWithSquashed u (Template.trim s) [] expand := by
  have hnone : splitOnce '\n' s = none := if_neg h
  rw [messageOfWhole, hnone]
  rfl

/-- Both readers give the same messages for a plain commit. -/
theorem Plain.wholeMessages_eq (h : Plain m) :
    wholeMessages u expand m = apartMessages u expand m := by
  obtain ⟨l, hfirst, hl⟩ := h
  obtain ⟨more, hlines, hmore⟩ : ∃ more, messageLines m = l :: more ∧
      more.takeWhile (!isBlankLine ·) = [] := by
    unfold firstParagraph at hfirst
    cases hlines : messageLines m with
    | nil => simp [hlines] at hfirst
    | cons l' more =>
      rw [hlines, List.takeWhile_cons] at hfirst
      split at hfirst
      · obtain ⟨rfl, hmore⟩ := List.cons.inj hfirst
        exact ⟨more, rfl, hmore⟩
      · simp at hfirst
  have hnewline : '\n' ∉ l := Lines.not_mem_of_mem_splitOn
    (messageLines_subset m (hlines ▸ List.mem_cons_self))
  have hsubject : Template.trim (subjectOf m) = Template.trim l := by
    rw [subjectOf, hfirst, List.map_singleton, List.intercalate_singleton,
      trim_rdropWhile isWhitespace_of_isGitSpace]
  have hbody : Template.trim (bodyOf m) = Template.trim (afterLine more) := by
    have hblank : isBlankLine l = false := by
      have hmem : l ∈ firstParagraph m := by rw [hfirst]; exact List.mem_cons_self
      simpa using List.mem_takeWhile_imp hmem
    have hrest : more.dropWhile (!isBlankLine ·) = more := by
      have hsplit := List.takeWhile_append_dropWhile (p := (!isBlankLine ·)) (l := more)
      rwa [hmore, List.nil_append] at hsplit
    rw [bodyOf, hlines, List.dropWhile_cons_of_pos (by simp [hblank]), hrest,
      trim_intercalate_dropWhile, trim_afterLine]
  have hmessage : Template.trim m = Template.trim (l ++ afterLine more) := by
    rw [trim_message, hlines, intercalate_cons_eq]
  have hne : Template.trim m ≠ [] := by
    rw [hmessage, ne_eq, trim_eq_nil]
    intro hall
    exact hl (trim_of_all fun c hc => hall c (List.mem_append_left _ hc))
  rw [wholeMessages, if_neg hne, apartMessages, hsubject, hbody, hmessage]
  by_cases hrest : Template.trim (afterLine more) = []
  · have hall := trim_eq_nil.mp hrest
    have hline : '\n' ∉ Template.trim l := fun h => hnewline (trim_subset l h)
    rw [trim_append_right hall, messageOfWhole_line hline, trim_trim, hrest]
  · have hmore' : more ≠ [] := by
      rintro rfl
      exact hrest rfl
    have hafter : afterLine more = '\n' :: ['\n'].intercalate more := if_neg hmore'
    have hcut : Template.trim (l ++ afterLine more) = l.dropWhile isWhitespace ++
        '\n' :: (['\n'].intercalate more).rdropWhile isWhitespace := by
      have hl' : ¬∀ c ∈ l, isWhitespace c := fun hall => hl (trim_of_all hall)
      have hmore'' : ¬∀ c ∈ ['\n'].intercalate more, isWhitespace c := fun hall =>
        hrest ((trim_afterLine more).trans (trim_of_all hall))
      rw [trim_eq, dropWhile_append_left hl', hafter, List.append_cons,
        rdropWhile_append_left hmore'']
      simp
    have hhead : '\n' ∉ l.dropWhile isWhitespace := fun h =>
      hnewline ((List.dropWhile_sublist _).mem h)
    rw [hcut, messageOfWhole, splitOnce_append_cons hhead, Option.getD_some]
    simp only [trim_dropWhile, trim_rdropWhile fun _ h => h, trim_afterLine]

end Plain

/-! ### The words of the messages -/

section Words

open Words

variable {u : CharTables} {expand : Bool} {m msg s t l w : Text}

abbrev IsWordOf (t w : Text) : Prop := IsWord isWhitespace t w

theorem isWordOf_trim : IsWordOf (Template.trim s) w ↔ IsWordOf s w := by
  rw [trim_eq, IsWordOf, isWord_rdropWhile, isWord_dropWhile]

theorem isWordOf_rdropWhile {p : Char → Bool} (hp : ∀ c, p c → isWhitespace c) :
    IsWordOf (s.rdropWhile p) w ↔ IsWordOf s w := by
  have h := isWord_append_right (t := s.rdropWhile p) (w := w) (s := s.rtakeWhile p)
    fun c hc => hp c (List.mem_rtakeWhile_imp hc)
  rw [List.rdropWhile_append_rtakeWhile] at h
  exact h.symm

theorem isWordOf_stripCr : IsWordOf (Lines.stripCr s) w ↔ IsWordOf s w := by
  unfold Lines.stripCr
  split
  · next h =>
    obtain ⟨s', rfl⟩ := List.getLast?_eq_some_iff.mp h
    rw [List.dropLast_concat, IsWordOf, IsWordOf, isWord_append_right]
    simp [isWhitespace]
  · rfl

theorem isWordOf_line (hl : l ∈ Lines.lines s) (h : IsWordOf l w) : IsWordOf s w := by
  rw [IsWordOf, isWord_splitOn isWhitespace_newline]
  rcases List.mem_append.mp hl with hl | hl
  · obtain ⟨p, hp, rfl⟩ := List.mem_map.mp hl
    exact ⟨p, (List.dropLast_sublist _).subset hp, isWordOf_stripCr.mp h⟩
  · have hlast := (List.mem_filter.mp hl).1
    exact ⟨l, List.mem_of_getLast? (Option.mem_toList.mp hlast), h⟩

/-- A token that a message has is one of its words. -/
theorem isWordOf_of_messageHasToken {token : Text} (hne : token ≠ [])
    (h : messageHasToken msg token) : IsWordOf msg token := by
  obtain ⟨w, hw, heq⟩ := List.any_eq_true.mp h
  obtain rfl : w = token := by simpa using heq
  unfold subject at hw
  cases hlines : (Lines.lines msg).head? with
  | none =>
    rw [hlines] at hw
    exact absurd (by simpa using hw) hne
  | some l =>
    rw [hlines] at hw
    exact isWordOf_line (List.mem_of_mem_head? hlines) ⟨hne, hw⟩

theorem isWordOf_subjectOf (h : IsWordOf (subjectOf m) w) : IsWordOf m w := by
  have hspace : isWhitespace ' ' := by simp [isWhitespace]
  rw [subjectOf, IsWordOf, isWord_intercalate hspace] at h
  obtain ⟨l, hl, hw⟩ := h
  obtain ⟨l', hl', rfl⟩ := List.mem_map.mp hl
  rw [IsWordOf, isWord_splitOn isWhitespace_newline]
  exact ⟨l', firstParagraph_subset m hl', (isWordOf_rdropWhile isWhitespace_of_isGitSpace).mp hw⟩

theorem isWordOf_bodyOf (h : IsWordOf (bodyOf m) w) : IsWordOf m w := by
  rw [bodyOf, IsWordOf, isWord_intercalate isWhitespace_newline] at h
  obtain ⟨l, hl, hw⟩ := h
  have hlines : l ∈ messageLines m :=
    (List.dropWhile_sublist _).subset ((List.dropWhile_sublist _).subset hl)
  rw [IsWordOf, isWord_splitOn isWhitespace_newline]
  exact ⟨l, messageLines_subset m hlines, hw⟩

/-- The subject of a bullet is what follows the bullet mark and its spaces. -/
theorem isWordOf_bullet {caps : Found} (h : matchStart squashedSubjectRe l = some caps)
    (hw : IsWordOf (caps.get "1") w) : IsWordOf l w := by
  obtain ⟨hl, hreads⟩ := first_sound h
  obtain ⟨text, rest, groups⟩ := caps
  simp only [squashedSubjectRe, Re.cat, List.foldr] at hreads
  obtain ⟨_, _, _, _, rfl, rfl, ⟨rfl, rfl, -⟩, a, _, _, _, rfl, rfl, -, b, _, _, _, rfl, rfl, -,
    gap, _, _, _, rfl, rfl, hgap, bullet, _, _, _, rfl, rfl, ⟨k, rfl, -⟩, _, _, _, _, rfl, rfl,
    ⟨rfl, rfl, hend⟩, rfl, rfl⟩ := hreads
  obtain rfl : rest = [] := by simpa using hend
  obtain ⟨hne, hall, rfl⟩ := Re.reads_plus_char.mp hgap
  obtain ⟨d, gap, rfl⟩ := List.exists_cons_of_ne_nil hne
  obtain ⟨hd, hall⟩ := List.forall_mem_cons.mp hall
  have hbullet : IsWordOf bullet w := hw
  have hline : l = (a ++ b) ++ d :: (gap ++ bullet) := by simpa using hl
  rw [hline, IsWordOf, isWord_append_cons hd, isWord_append_left hall]
  exact .inr hbullet

theorem isWordOf_squashedSubject (hmsg : msg ∈ squashedSubjects u s t) (h : IsWordOf msg w) :
    IsWordOf t w := by
  obtain ⟨hmsg, -⟩ := List.mem_filter.mp hmsg
  obtain ⟨l, hl, hcaps⟩ := List.mem_filterMap.mp hmsg
  obtain ⟨caps, hmatch, rfl⟩ := Option.map_eq_some_iff.mp hcaps
  exact isWordOf_line hl (isWordOf_bullet hmatch ((isWordOf_rdropWhile fun _ h => h).mp h))

/-- The words of what a commit stands for are words of its message. -/
theorem isWordOf_apartMessages (hmsg : msg ∈ apartMessages u expand m) (h : IsWordOf msg w) :
    IsWordOf m w := by
  have hsubject : IsWordOf (Template.trim (subjectOf m)) w → IsWordOf m w := fun h =>
    isWordOf_subjectOf (isWordOf_trim.mp h)
  have hbody : IsWordOf (Template.trim (bodyOf m)) w → IsWordOf m w := fun h =>
    isWordOf_bodyOf (isWordOf_trim.mp h)
  rcases List.mem_cons.mp hmsg with rfl | hmsg
  · split at h
    · exact hsubject h
    · have hcut : Template.trim (subjectOf m) ++ "\n\n".toList ++ Template.trim (bodyOf m) =
          Template.trim (subjectOf m) ++ '\n' :: ('\n' :: Template.trim (bodyOf m)) := by simp
      rw [hcut, IsWordOf, isWord_append_cons isWhitespace_newline,
        isWord_cons isWhitespace_newline] at h
      exact h.elim hsubject hbody
  · split at hmsg
    · exact hbody (isWordOf_squashedSubject hmsg h)
    · simp at hmsg

end Words

end Anodizer.Tag

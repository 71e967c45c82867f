/-
  Nachos.Utility.ConfigSpec

  What the constructor makes of a configuration file.  `fgets` leaves the buffer as it is
  when nothing is left to read, and the end of a file is only seen by reading past it: the
  line in the buffer is applied once more unless the file ends without a newline.
-/

import Nachos.Utility.Config

namespace Nachos
namespace ConfigFile

open Guarded Stdio

/-- A line of the file, without its newline. -/
structure Line where
  chars : List Char
  noNewline : '\n' ∉ chars
  noNul : '\x00' ∉ chars
  short : chars.length < LINE_LENGTH

/-- What a line asks for; comments and empty lines ask for nothing. -/
def directive (l : Line) : Option Directive :=
  if skipped l.chars then none else parse l.chars

/-- The line is a comment, empty, or sets a parameter. -/
def Valid (l : Line) : Prop := skipped l.chars = true ∨ ∃ d, parse l.chars = some d

def directives (lines : List Line) : List Directive := lines.filterMap directive

/-- The pair of a `FileToCopy` line. -/
def Directive.pair : Directive → Option (List Char × List Char)
  | .FileToCopy unix nachos => some (unix, nachos)
  | _ => none

def copies (ds : List Directive) : List (List Char × List Char) := ds.filterMap Directive.pair

/-- The file: `lines` with their newlines, and `last` without one.  It ends with a newline
    when `last` is empty. -/
def contents (lines : List Line) (last : Line) : List Char :=
  lines.flatMap (fun l => l.chars ++ ['\n']) ++ last.chars

/-- The constructor goes through the whole file without writing outside an array; each
    line has been applied once, in order, and the pairs are in their rows. -/
def AppliesOnce (lines : List Line) (r : Except Ending Reading) : Prop :=
  ∃ s, r = .ok s ∧ s.applied = directives lines ∧
    s.config.NbCopy = (copies (directives lines)).length ∧
    ∀ i p, (copies (directives lines))[i]? = some p →
      s.config.ToCopyUnix i = p.1 ∧ s.config.ToCopyNachos i = p.2

/-! ## A line in the buffer -/

section

variable {s t : List Char}

theorem value_bind {α : Type} (h : Ended s t) {f : List Char → Option α}
    (hf : ∀ s' t', Ended s' t' → f t' = f s') : (value t >>= f) = (value s >>= f) := by
  unfold value
  rw [bind_assoc, bind_assoc]
  exact h.scanWord_bind fun _ _ _ h => h.scanChar_bind (by decide) hf

theorem intValue_ended (h : Ended s t) : intValue t = intValue s :=
  value_bind h fun _ _ h => h.scanInt

theorem nameValue_ended (h : Ended s t) : nameValue t = nameValue s :=
  value_bind h fun _ _ h => h.scanWord_bind fun _ _ _ _ => rfl

theorem twoNames_ended (h : Ended s t) : twoNames t = twoNames s :=
  value_bind h fun _ _ h => h.scanWord_bind fun _ _ _ h => h.scanWord_bind fun _ _ _ _ => rfl

/-- The newline at the end of the line plays no role. -/
theorem parse_ended (h : Ended s t) : parse t = parse s := by
  unfold parse
  rw [intValue_ended h, nameValue_ended h, twoNames_ended h]
  exact h.scanWord_bind fun _ _ _ _ => rfl

theorem skipped_newline (hs : '\n' ∉ s) : skipped (s ++ ['\n']) = skipped s := by
  cases s with
  | nil => rfl
  | cons c s =>
      have hc : c ≠ '\n' := fun h => hs (by simp [h])
      simp [skipped, hc]

theorem applyLine_newline (hs : '\n' ∉ s) : applyLine (s ++ ['\n']) = applyLine s := by
  funext x
  unfold applyLine
  rw [skipped_newline hs, parse_ended (Ended.newline s)]

end

/-! ## The loop -/

/-- What the buffer holds after a line and its newline. -/
def buffered (l : Line) : List Char := if l.chars.length + 1 < LINE_LENGTH then l.chars else []

/-- What is in the buffer when nothing is left to read, and nothing when the end of the
    file has been seen with the last line. -/
def leftOver (junk : List Char) (lines : List Line) (last : Line) : List Char :=
  if last.chars = [] then lines.foldl (fun _ l => buffered l) junk
  else if last.chars.length + 1 < LINE_LENGTH then []
  else last.chars

theorem readLines_step (rest ligne : List Char) (s : Reading) :
    readLines ⟨rest, false⟩ ligne s =
      (applyLine (fgets ligne LINE_LENGTH ⟨rest, false⟩).1 s >>=
        readLines (fgets ligne LINE_LENGTH ⟨rest, false⟩).2
          (fgets ligne LINE_LENGTH ⟨rest, false⟩).1) := by
  rw [readLines, dif_neg Bool.false_ne_true]

theorem readLines_eof (rest ligne : List Char) (s : Reading) :
    readLines ⟨rest, true⟩ ligne s = pure s := by
  rw [readLines, dif_pos rfl]

/-- A call of `fgets` that reads something. -/
theorem readLines_read {rest line rest' : List Char} {eof : Bool} (hne : line ≠ [])
    (hread : read (LINE_LENGTH - 1) rest = (line, ⟨rest', eof⟩)) (ligne : List Char)
    (s : Reading) :
    readLines ⟨rest, false⟩ ligne s = (applyLine line s >>= readLines ⟨rest', eof⟩ line) := by
  have hgets : fgets ligne LINE_LENGTH ⟨rest, false⟩ = (line, ⟨rest', eof⟩) := by
    rw [fgets, hread]
    cases line with
    | nil => exact absurd rfl hne
    | cons c line => rfl
  rw [readLines_step, hgets]

/-- The call that reads nothing. -/
theorem readLines_nil (ligne : List Char) (s : Reading) :
    readLines ⟨[], false⟩ ligne s = applyLine ligne s := by
  have hgets : fgets ligne LINE_LENGTH ⟨[], false⟩ = (ligne, ⟨[], true⟩) := rfl
  rw [readLines_step, hgets]
  dsimp only
  cases applyLine ligne s with
  | error e => rfl
  | ok s => exact readLines_eof [] ligne s

/-- A line with its newline is applied once. -/
theorem readLines_line (l : Line) (rest ligne : List Char) (s : Reading) :
    ∃ buffer, applyLine buffer = applyLine (buffered l) ∧
      readLines ⟨l.chars ++ '\n' :: rest, false⟩ ligne s =
        (applyLine l.chars s >>= readLines ⟨rest, false⟩ buffer) := by
  have hne : l.chars ++ ['\n'] ≠ [] := by simp
  by_cases hlen : l.chars.length + 1 < LINE_LENGTH
  · refine ⟨l.chars ++ ['\n'], ?_, ?_⟩
    · rw [buffered, if_pos hlen, applyLine_newline l.noNewline]
    · rw [readLines_read hne (read_line l.noNewline (by omega)), applyLine_newline l.noNewline]
  · -- The newline does not fit, and is read as an empty line.
    have hfull : LINE_LENGTH - 1 = l.chars.length := by
      have := l.short
      omega
    have hempty : applyLine ['\n'] = pure := rfl
    refine ⟨['\n'], ?_, ?_⟩
    · rw [buffered, if_neg hlen]
      rfl
    · have hline : l.chars ≠ [] := by
        intro h
        rw [h] at hlen
        exact hlen (by decide)
      have hnewline : read (LINE_LENGTH - 1) ('\n' :: rest) = (['\n'], ⟨rest, false⟩) :=
        read_line List.not_mem_nil (by decide)
      rw [readLines_read hline (hfull ▸ read_full l.noNewline)]
      congr 1
      funext s
      rw [readLines_read (List.cons_ne_nil _ _) hnewline, hempty]
      rfl

/-- What comes after the last newline. -/
theorem readLines_last {last : Line} (hne : last.chars ≠ []) (ligne : List Char) (s : Reading) :
    readLines ⟨last.chars, false⟩ ligne s =
      (applyLine last.chars s >>=
        applyLine (if last.chars.length + 1 < LINE_LENGTH then [] else last.chars)) := by
  by_cases hlen : last.chars.length + 1 < LINE_LENGTH
  · rw [readLines_read hne (read_last last.noNewline (by omega)), if_pos hlen]
    congr 1
    funext s
    exact readLines_eof [] last.chars s
  · -- The buffer is full before the end of the file is seen.
    have hfull : LINE_LENGTH - 1 = last.chars.length := by
      have := last.short
      omega
    have hread : read last.chars.length (last.chars ++ []) = (last.chars, ⟨[], false⟩) :=
      read_full last.noNewline
    rw [List.append_nil, ← hfull] at hread
    rw [readLines_read hne hread, if_neg hlen]
    congr 1
    funext s
    exact readLines_nil last.chars s

/-- Lines applied one after the other. -/
def applyLines (lines : List Line) (s : Reading) : Except Ending Reading :=
  lines.foldlM (fun s l => applyLine l.chars s) s

/-- The loop applies the lines of the file, and then what is left in the buffer. -/
theorem readLines_contents (lines : List Line) (last : Line) (junk ligne : List Char)
    (hjunk : applyLine ligne = applyLine junk) (s : Reading) :
    readLines ⟨contents lines last, false⟩ ligne s =
      (applyLines (lines ++ [last]) s >>= applyLine (leftOver junk lines last)) := by
  induction lines generalizing junk ligne s with
  | nil =>
      rw [List.nil_append, applyLines, List.foldlM_cons, bind_assoc]
      by_cases hne : last.chars = []
      · have hempty : applyLine [] = pure := rfl
        rw [contents, hne, leftOver, if_pos hne, hempty]
        show readLines ⟨[], false⟩ ligne s = applyLine junk s
        rw [readLines_nil, hjunk]
      · rw [leftOver, if_neg hne]
        exact readLines_last hne ligne s
  | cons l lines ih =>
      have hcontents : contents (l :: lines) last = l.chars ++ '\n' :: contents lines last := by
        simp [contents]
      obtain ⟨buffer, hbuffer, hline⟩ := readLines_line l (contents lines last) ligne s
      rw [hcontents, hline, List.cons_append, applyLines, List.foldlM_cons, bind_assoc]
      congr 1
      funext s
      exact ih (buffered l) buffer hbuffer s

/-! ## The directives -/

/-- The strings of a directive fit in their arrays. -/
def Directive.Fits : Directive → Prop
  | .name _ s => ConfigFile.Fits s
  | .FileToCopy unix nachos => ConfigFile.Fits unix ∧ ConfigFile.Fits nachos
  | _ => True

/-- A directive applied, and written down. -/
def applyDirective (s : Reading) (d : Directive) : Except Ending Reading := do
  let c ← d.apply s.config
  pure ⟨c, s.applied ++ [d]⟩

theorem applyLine_valid {l : Line} (h : Valid l) (s : Reading) :
    applyLine l.chars s = (directive l).toList.foldlM applyDirective s := by
  unfold applyLine directive
  rcases h with h | ⟨d, hd⟩
  · rw [if_pos h, if_pos h]
    rfl
  · split
    · rfl
    · rw [hd]
      exact (bind_pure (applyDirective s d)).symm

theorem applyLines_valid {lines : List Line} (h : ∀ l ∈ lines, Valid l) (s : Reading) :
    applyLines lines s = (directives lines).foldlM applyDirective s := by
  induction lines generalizing s with
  | nil => rfl
  | cons l lines ih =>
      have hcons : directives (l :: lines) = (directive l).toList ++ directives lines := by
        unfold directives
        rw [List.filterMap_cons]
        cases directive l with
        | none => rfl
        | some d => rfl
      rw [applyLines, List.foldlM_cons, applyLine_valid (h l List.mem_cons_self), hcons,
        List.foldlM_append]
      congr 1
      funext s
      exact ih (fun l hl => h l (List.mem_cons_of_mem _ hl)) s

/-- The tables of the files to copy are the same. -/
structure SameCopies (c c' : Config) : Prop where
  NbCopy : c'.NbCopy = c.NbCopy
  ToCopyUnix : c'.ToCopyUnix = c.ToCopyUnix
  ToCopyNachos : c'.ToCopyNachos = c.ToCopyNachos

theorem setInt_sameCopies (c : Config) (v : Int) (field : IntField) :
    SameCopies c (c.setInt v field) := by
  cases field <;> exact ⟨rfl, rfl, rfl⟩

theorem setBool_sameCopies (c : Config) (v : Bool) (field : BoolField) :
    SameCopies c (c.setBool v field) := by
  cases field <;> exact ⟨rfl, rfl, rfl⟩

theorem setName_sameCopies (c : Config) (s : List Char) (field : NameField) :
    SameCopies c (c.setName s field) := by
  cases field <;> exact ⟨rfl, rfl, rfl⟩

/-- What a directive does to the tables, when it is applied. -/
inductive Copied (d : Directive) (c c' : Config) : Prop where
  | same (hpair : d.pair = none) (h : SameCopies c c')
  | copy (unix nachos : List Char) (hpair : d.pair = some (unix, nachos))
      (h : c' = c.copy unix nachos)

theorem apply_copied {d : Directive} {c c' : Config} (h : d.apply c = .ok c') :
    Copied d c c' := by
  cases d with
  | int field v =>
      obtain rfl := Except.ok.inj h
      exact .same rfl (setInt_sameCopies c v field)
  | bool field v =>
      obtain rfl := Except.ok.inj h
      exact .same rfl (setBool_sameCopies c _ field)
  | name field s =>
      obtain ⟨-, -, h⟩ := bind_ok.mp h
      obtain rfl := Except.ok.inj h
      exact .same rfl (setName_sameCopies c s field)
  | FileToCopy unix nachos =>
      obtain ⟨-, -, h⟩ := bind_ok.mp h
      exact .copy unix nachos rfl (Except.ok.inj h).symm
  | UseACIA mode =>
      obtain rfl := Except.ok.inj h
      exact .same rfl ⟨rfl, rfl, rfl⟩

theorem apply_returns {d : Directive} {c : Config} :
    Returns (d.apply c) ↔ d.Fits ∧ (d.pair.isSome → c.NbCopy < MAXCOPY) := by
  cases d with
  | int field v => simp [Directive.apply, Directive.Fits, Directive.pair]
  | bool field v => simp [Directive.apply, Directive.Fits, Directive.pair]
  | name field s =>
      rw [Directive.apply, returns_demand]
      simp [Directive.Fits, Directive.pair]
  | FileToCopy unix nachos =>
      rw [Directive.apply, returns_demand]
      simp [Directive.Fits, Directive.pair, and_comm]
  | UseACIA mode => simp [Directive.apply, Directive.Fits, Directive.pair]

theorem applyDirective_ok {s s' : Reading} {d : Directive} :
    applyDirective s d = .ok s' ↔
      ∃ c, d.apply s.config = .ok c ∧ s' = ⟨c, s.applied ++ [d]⟩ := by
  unfold applyDirective
  rw [bind_ok]
  constructor
  · rintro ⟨c, hc, h⟩
    exact ⟨c, hc, (Except.ok.inj h).symm⟩
  · rintro ⟨c, hc, rfl⟩
    exact ⟨c, hc, rfl⟩

theorem copies_cons (d : Directive) (ds : List Directive) :
    copies (d :: ds) = d.pair.toList ++ copies ds := by
  unfold copies
  rw [List.filterMap_cons]
  cases d.pair with
  | none => rfl
  | some p => rfl

theorem apply_nbCopy {d : Directive} {c c' : Config} (h : d.apply c = .ok c') :
    c'.NbCopy = c.NbCopy + d.pair.toList.length := by
  cases apply_copied h with
  | same hpair hsame =>
      rw [hsame.NbCopy, hpair]
      rfl
  | copy unix nachos hpair hcopy =>
      rw [hcopy, hpair]
      rfl

theorem pair_room {d : Directive} {n : Nat} (hroom : d.pair.isSome → n < MAXCOPY)
    (h : n ≤ MAXCOPY) : n + d.pair.toList.length ≤ MAXCOPY := by
  cases hpair : d.pair with
  | none => exact h
  | some p => exact hroom (by rw [hpair]; rfl)

/-- What directives have done that have all been applied. -/
theorem applied_ok {ds : List Directive} {s s' : Reading}
    (h : ds.foldlM applyDirective s = .ok s') :
    s'.applied = s.applied ++ ds ∧ s'.config.NbCopy = s.config.NbCopy + (copies ds).length ∧
      (∀ i < s.config.NbCopy, s'.config.ToCopyUnix i = s.config.ToCopyUnix i ∧
        s'.config.ToCopyNachos i = s.config.ToCopyNachos i) ∧
      ∀ i p, (copies ds)[i]? = some p → s'.config.ToCopyUnix (s.config.NbCopy + i) = p.1 ∧
        s'.config.ToCopyNachos (s.config.NbCopy + i) = p.2 := by
  induction ds generalizing s with
  | nil =>
      obtain rfl := Except.ok.inj h
      exact ⟨(List.append_nil _).symm, rfl, fun _ _ => ⟨rfl, rfl⟩, fun i p hp => nomatch hp⟩
  | cons d ds ih =>
      rw [List.foldlM_cons] at h
      obtain ⟨s₁, hd, h⟩ := bind_ok.mp h
      obtain ⟨c, hc, rfl⟩ := applyDirective_ok.mp hd
      obtain ⟨happlied, hnb, hrows, hnew⟩ := ih h
      dsimp only at happlied hnb hrows hnew
      have happlied' : s'.applied = s.applied ++ d :: ds := by
        rw [happlied, List.append_assoc, List.singleton_append]
      refine ⟨happlied', ?_⟩
      rw [copies_cons]
      cases apply_copied hc with
      | same hpair hsame =>
          rw [hsame.NbCopy] at hnb hrows hnew
          rw [hsame.ToCopyUnix, hsame.ToCopyNachos] at hrows
          rw [hpair]
          exact ⟨hnb, hrows, hnew⟩
      | copy unix nachos hpair hcopy =>
          subst hcopy
          rw [hpair]
          refine ⟨?_, ?_, ?_⟩
          · rw [hnb, List.length_append]
            exact Nat.add_assoc _ 1 _
          · intro i hi
            obtain ⟨hu, hn⟩ := hrows i (Nat.lt_succ_of_lt hi)
            rw [hu, hn]
            exact ⟨Function.update_of_ne (Nat.ne_of_lt hi) _ _,
              Function.update_of_ne (Nat.ne_of_lt hi) _ _⟩
          · intro i p hp
            cases i with
            | zero =>
                -- The new row stays as it is in the following steps.
                obtain rfl := Option.some.inj hp
                obtain ⟨hu, hn⟩ := hrows s.config.NbCopy (Nat.lt_succ_self _)
                rw [Nat.add_zero, hu, hn]
                exact ⟨Function.update_self _ _ _, Function.update_self _ _ _⟩
            | succ i =>
                rw [← Nat.succ_add_eq_add_succ]
                exact hnew i p hp

/-- They are applied when there are rows for the pairs and the strings fit. -/
theorem applied_returns (ds : List Directive) (s : Reading) (h : s.config.NbCopy ≤ MAXCOPY) :
    Returns (ds.foldlM applyDirective s) ↔
      s.config.NbCopy + (copies ds).length ≤ MAXCOPY ∧ ∀ d ∈ ds, d.Fits := by
  induction ds generalizing s with
  | nil => simpa [copies] using h
  | cons d ds ih =>
      have hlength : (copies (d :: ds)).length = d.pair.toList.length + (copies ds).length := by
        rw [copies_cons, List.length_append]
      rw [List.foldlM_cons, returns_bind, hlength]
      constructor
      · rintro ⟨s₁, hd, hrest⟩
        obtain ⟨c, hc, rfl⟩ := applyDirective_ok.mp hd
        obtain ⟨hfits, hroom⟩ := apply_returns.mp ⟨c, hc⟩
        have hnb := apply_nbCopy hc
        have hle := pair_room hroom h
        obtain ⟨hcount, hall⟩ := (ih ⟨c, s.applied ++ [d]⟩ (hnb ▸ hle)).mp hrest
        refine ⟨?_, List.forall_mem_cons.mpr ⟨hfits, hall⟩⟩
        dsimp only at hcount
        omega
      · rintro ⟨hcount, hall⟩
        obtain ⟨hfits, hall⟩ := List.forall_mem_cons.mp hall
        have hroom : d.pair.isSome → s.config.NbCopy < MAXCOPY := by
          intro hsome
          obtain ⟨p, hp⟩ := Option.isSome_iff_exists.mp hsome
          rw [hp, Option.toList_some, List.length_singleton] at hcount
          omega
        obtain ⟨c, hc⟩ := apply_returns.mpr ⟨hfits, hroom⟩
        have hnb := apply_nbCopy hc
        refine ⟨⟨c, s.applied ++ [d]⟩, applyDirective_ok.mpr ⟨c, hc, rfl⟩, ?_⟩
        have hle := pair_room hroom h
        refine (ih ⟨c, s.applied ++ [d]⟩ (hnb ▸ hle)).mpr ⟨?_, hall⟩
        dsimp only
        omega

/-! ## The constructor -/

/-- The conditions on the file: nothing that is left in the buffer asks for anything, and
    there is room for the pairs and the strings. -/
structure Meets (junk : List Char) (lines : List Line) (last : Line) : Prop where
  leftOver : skipped (leftOver junk lines last) = true
  rows : (copies (directives (lines ++ [last]))).length ≤ MAXCOPY
  fits : ∀ d ∈ directives (lines ++ [last]), d.Fits

/-- The lines of a file, and then what is left in the buffer. -/
theorem new_eq (raw : Config) (junk : List Char) {lines : List Line} {last : Line}
    (hvalid : ∀ l ∈ lines ++ [last], Valid l) :
    Config.new raw junk (contents lines last) =
      ((directives (lines ++ [last])).foldlM applyDirective ⟨defaults raw, []⟩ >>=
        applyLine (leftOver junk lines last)) := by
  rw [← applyLines_valid hvalid]
  exact readLines_contents lines last junk junk rfl _

/-- A line that is left in the buffer is applied a second time. -/
theorem skipped_of_appliesOnce {raw : Config} {junk : List Char} {lines : List Line}
    {last : Line} (hvalid : ∀ l ∈ lines ++ [last], Valid l)
    (h : AppliesOnce (lines ++ [last]) (Config.new raw junk (contents lines last))) :
    skipped (leftOver junk lines last) = true := by
  obtain ⟨s, hok, happlied, -⟩ := h
  rw [new_eq raw junk hvalid] at hok
  obtain ⟨s₁, hall, hlast⟩ := bind_ok.mp hok
  obtain ⟨happlied₁, -⟩ := applied_ok hall
  by_contra hskip
  unfold applyLine at hlast
  rw [if_neg hskip] at hlast
  split at hlast
  · exact nomatch hlast
  · obtain ⟨c, -, hs⟩ := bind_ok.mp hlast
    obtain rfl := Except.ok.inj hs
    have hlength := congrArg List.length happlied
    rw [happlied₁] at hlength
    simp at hlength

/-- The line `FileToCopy = a /a`. -/
def copyLine : Line where
  chars := "FileToCopy = a /a".toList
  noNewline := by decide
  noNul := by decide
  short := by decide

/-- No characters after the last newline. -/
def noLine : Line where
  chars := []
  noNewline := List.not_mem_nil
  noNul := List.not_mem_nil
  short := by decide

theorem copyLine_valid : Valid copyLine := Or.inr ⟨.FileToCopy ['a'] ['/', 'a'], by decide⟩

theorem noLine_valid : Valid noLine := Or.inl rfl

/-- Each line of a file of valid lines is applied once just when the conditions are met. -/
theorem appliesOnce_iff (raw : Config) (junk : List Char) (lines : List Line) (last : Line)
    (hvalid : ∀ l ∈ lines ++ [last], Valid l) :
    AppliesOnce (lines ++ [last]) (Config.new raw junk (contents lines last)) ↔
      Meets junk lines last := by
  have hzero : (defaults raw).NbCopy = 0 := rfl
  have hreturns := applied_returns (directives (lines ++ [last])) ⟨defaults raw, []⟩
    (Nat.zero_le _)
  rw [hzero, Nat.zero_add] at hreturns
  constructor
  · intro h
    have hskip := skipped_of_appliesOnce hvalid h
    obtain ⟨s, hok, -⟩ := h
    rw [new_eq raw junk hvalid] at hok
    obtain ⟨s₁, hall, -⟩ := bind_ok.mp hok
    obtain ⟨hrows, hfits⟩ := hreturns.mp ⟨s₁, hall⟩
    exact ⟨hskip, hrows, hfits⟩
  · rintro ⟨hskip, hrows, hfits⟩
    obtain ⟨s, hs⟩ := hreturns.mpr ⟨hrows, hfits⟩
    obtain ⟨happlied, hnb, -, hnew⟩ := applied_ok hs
    rw [hzero, Nat.zero_add] at hnb
    rw [new_eq raw junk hvalid]
    refine ⟨s, bind_ok.mpr ⟨s, hs, if_pos hskip⟩, happlied, hnb, fun i p hp => ?_⟩
    have hrow := hnew i p hp
    rwa [hzero, Nat.zero_add] at hrow

/-- The file `"FileToCopy = a /a\n\n"`. -/
theorem appliesOnce_iff_copyLine :
    AppliesOnce [copyLine, noLine, noLine]
      (Config.new default [] (contents [copyLine, noLine] noLine)) := by
  refine (appliesOnce_iff default [] [copyLine, noLine] noLine ?_).mpr ⟨rfl, by decide, ?_⟩
  · simp [copyLine_valid, noLine_valid]
  · have hdirectives : directives [copyLine, noLine, noLine] =
        [.FileToCopy ['a'] ['/', 'a']] := by decide
    intro d hd
    rw [List.cons_append, List.cons_append, List.nil_append, hdirectives] at hd
    rw [List.mem_singleton.mp hd]
    exact ⟨by decide, by decide⟩

/-- The file `"FileToCopy = a /a\n"`. -/
theorem appliesOnce_fails :
    ¬ ∀ (raw : Config) (junk : List Char) (lines : List Line) (last : Line),
      (∀ l ∈ lines ++ [last], Valid l) →
        AppliesOnce (lines ++ [last]) (Config.new raw junk (contents lines last)) := by
  intro h
  have hvalid : ∀ l ∈ [copyLine] ++ [noLine], Valid l := by simp [copyLine_valid, noLine_valid]
  have hskip := skipped_of_appliesOnce hvalid (h default [] [copyLine] noLine hvalid)
  exact absurd hskip (by decide)

end ConfigFile
end Nachos

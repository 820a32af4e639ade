import Nemu.Common

/-!
# Command-line arguments

`parse_args` of `src/monitor/monitor.c` over `getopt` with the option string `"-bl:d:a:"`.  The `-`
in front makes `getopt` return the arguments that are no options in their place, as the option 1.
`CommandLine` says which command lines there are; `parse_args` accepts these and no others.
-/

namespace Nemu

/-! ## getopt -/

/-- What a call of `getopt` returns, with `optarg`. -/
inductive Getopt
  | option (c : Char) (optarg : List Char)
  | nonOption (optarg : List Char)
  | unknown

/-- Whether an option takes an argument, if there is one of the name. -/
def optstring (c : Char) : Option Bool :=
  if c = 'b' then some false
  else if c = 'l' ∨ c = 'd' ∨ c = 'a' then some true
  else none

/-- The option `c`, with `cs` behind it in its argument. -/
def getoptLetter (c : Char) (cs : List Char) (args : List (List Char)) :
    Getopt × List Char × List (List Char) :=
  match optstring c with
  | none => (.unknown, cs, args)
  | some false => (.option c [], cs, args)
  | some true =>
      match cs, args with
      | _ :: _, _ => (.option c cs, [], args)
      | [], arg :: args => (.option c arg, [], args)
      | [], [] => (.unknown, [], [])

/-- One call: `nextchar` is what is left of a cluster of options; the end is `none`. -/
def getopt (nextchar : List Char) (args : List (List Char)) :
    Option (Getopt × List Char × List (List Char)) :=
  match nextchar, args with
  | c :: cs, _ => some (getoptLetter c cs args)
  | [], [] => none
  | [], arg :: args =>
      match arg with
      | ['-', '-'] => none
      | '-' :: c :: cs => some (getoptLetter c cs args)
      | _ => some (.nonOption arg, [], args)

def sizeOfArgs (nextchar : List Char) (args : List (List Char)) : Nat :=
  nextchar.length + args.length + args.flatten.length

theorem getoptLetter_lt (c : Char) (cs : List Char) (args : List (List Char)) :
    sizeOfArgs (getoptLetter c cs args).2.1 (getoptLetter c cs args).2.2 ≤ sizeOfArgs cs args := by
  unfold getoptLetter
  cases optstring c with
  | none => exact Nat.le_refl _
  | some takes =>
      cases takes with
      | false => exact Nat.le_refl _
      | true =>
          cases cs with
          | cons d ds =>
              simp only [sizeOfArgs, List.length_nil]
              omega
          | nil =>
              cases args with
              | nil => exact Nat.le_refl _
              | cons arg args =>
                  simp only [sizeOfArgs, List.flatten_cons, List.length_append, List.length_cons]
                  omega

/-- Every call takes something off the arguments. -/
theorem getopt_lt {nextchar nextchar' : List Char} {args args' : List (List Char)} {g : Getopt}
    (h : getopt nextchar args = some (g, nextchar', args')) :
    sizeOfArgs nextchar' args' < sizeOfArgs nextchar args := by
  have hletter : ∀ c cs as, getoptLetter c cs as = (g, nextchar', args') →
      sizeOfArgs nextchar' args' ≤ sizeOfArgs cs as := by
    intro c cs as heq
    have hle := getoptLetter_lt c cs as
    rwa [heq] at hle
  unfold getopt at h
  split at h
  case h_1 c cs =>
    have hle := hletter c cs args (Option.some.inj h)
    simp only [sizeOfArgs, List.length_cons] at hle ⊢
    omega
  case h_2 => cases h
  case h_3 arg args₀ =>
    split at h
    · cases h
    · rename_i c cs _
      have hle := hletter c cs args₀ (Option.some.inj h)
      simp only [sizeOfArgs, List.flatten_cons, List.length_append, List.length_cons,
        List.length_nil] at hle ⊢
      omega
    · cases h
      simp only [sizeOfArgs, List.flatten_cons, List.length_append, List.length_cons,
        List.length_nil]
      omega

/-! ## parse_args -/

/-- The statics of `monitor.c`. -/
structure MonitorArgs where
  mainargs : List Char
  logFile : Option (List Char)
  diffSoFile : Option (List Char)
  imgFile : Option (List Char)
  isBatchMode : Bool
  deriving DecidableEq, Repr

def MonitorArgs.initial : MonitorArgs := ⟨[], none, none, none, false⟩

/-- The `switch` of `parse_args`. -/
def MonitorArgs.take (m : MonitorArgs) : Getopt → Except Fault MonitorArgs
  | .option c optarg =>
      match c with
      | 'b' => .ok { m with isBatchMode := true }
      | 'a' => .ok { m with mainargs := optarg }
      | 'l' => .ok { m with logFile := some optarg }
      | 'd' => .ok { m with diffSoFile := some optarg }
      | _ => .error .abort
  | .nonOption optarg => .ok { m with imgFile := some (m.imgFile.getD optarg) }
  | .unknown => .error .abort

def parseLoop (m : MonitorArgs) (nextchar : List Char) (args : List (List Char)) :
    Except Fault MonitorArgs :=
  match _hcall : getopt nextchar args with
  | none => .ok m
  | some (g, nextchar', args') =>
      match m.take g with
      | .error e => .error e
      | .ok m' => parseLoop m' nextchar' args'
termination_by sizeOfArgs nextchar args
decreasing_by exact getopt_lt (by assumption)

/-- Of the arguments behind `argv[0]`. -/
def parseArgs (args : List (List Char)) : Except Fault MonitorArgs := parseLoop .initial [] args

/-! ## Command lines -/

inductive Setting
  | batch
  | mainargs (v : List Char)
  | logFile (v : List Char)
  | diffSoFile (v : List Char)
  | image (v : List Char)
  deriving DecidableEq, Repr

/-- The last one counts, and of the images the first. -/
def MonitorArgs.apply (m : MonitorArgs) : Setting → MonitorArgs
  | .batch => { m with isBatchMode := true }
  | .mainargs v => { m with mainargs := v }
  | .logFile v => { m with logFile := some v }
  | .diffSoFile v => { m with diffSoFile := some v }
  | .image v => { m with imgFile := some (m.imgFile.getD v) }

/-- The options that take an argument. -/
inductive Setting.Named : Char → (List Char → Setting) → Prop
  | mainargs : Named 'a' .mainargs
  | logFile : Named 'l' .logFile
  | diffSoFile : Named 'd' .diffSoFile

/-- An argument that is no option. -/
def IsOperand (arg : List Char) : Prop := arg = ['-'] ∨ arg.head? ≠ some '-'

/-- What is left of an argument with options, the arguments behind it, and what they ask for. -/
inductive CommandLine : List Char → List (List Char) → List Setting → Prop
  | nil : CommandLine [] [] []
  | endOfOptions (args : List (List Char)) : CommandLine [] (['-', '-'] :: args) []
  | operand {arg : List Char} {args : List (List Char)} {ss : List Setting} (harg : IsOperand arg)
      (hrest : CommandLine [] args ss) : CommandLine [] (arg :: args) (.image arg :: ss)
  | options {c : Char} {cs : List Char} {args : List (List Char)} {ss : List Setting}
      (hrest : CommandLine (c :: cs) args ss) : CommandLine [] (('-' :: c :: cs) :: args) ss
  | batch {cs : List Char} {args : List (List Char)} {ss : List Setting}
      (hrest : CommandLine cs args ss) : CommandLine ('b' :: cs) args (.batch :: ss)
  | attached {c d : Char} {v : List Char} {args : List (List Char)} {ss : List Setting}
      {setting : List Char → Setting} (hc : Setting.Named c setting)
      (hrest : CommandLine [] args ss) : CommandLine (c :: d :: v) args (setting (d :: v) :: ss)
  | separate {c : Char} {v : List Char} {args : List (List Char)} {ss : List Setting}
      {setting : List Char → Setting} (hc : Setting.Named c setting)
      (hrest : CommandLine [] args ss) : CommandLine [c] (v :: args) (setting v :: ss)

/-! ## One call -/

section Call

variable {m m' : MonitorArgs} {g : Getopt} {nextchar nextchar' : List Char}
  {args args' : List (List Char)}

theorem Setting.Named.optstring {c : Char} {setting : List Char → Setting}
    (h : Setting.Named c setting) : Nemu.optstring c = some true := by
  cases h <;> rfl

theorem Setting.Named.take {c : Char} {setting : List Char → Setting}
    (h : Setting.Named c setting) (m : MonitorArgs) (v : List Char) :
    m.take (.option c v) = .ok (m.apply (setting v)) := by
  cases h <;> rfl

theorem optstring_cases (c : Char) :
    Nemu.optstring c = none ∨ c = 'b' ∨ ∃ setting, Setting.Named c setting := by
  by_cases hb : c = 'b'
  · exact .inr (.inl hb)
  by_cases hl : c = 'l'
  · subst hl
    exact .inr (.inr ⟨_, .logFile⟩)
  by_cases hd : c = 'd'
  · subst hd
    exact .inr (.inr ⟨_, .diffSoFile⟩)
  by_cases ha : c = 'a'
  · subst ha
    exact .inr (.inr ⟨_, .mainargs⟩)
  · exact .inl (by simp [Nemu.optstring, hb, hl, hd, ha])

/-- What a call that is accepted asks for; the calls behind it get what is left. -/
def Asks (m : MonitorArgs) (nextchar : List Char) (args : List (List Char)) (nextchar' : List Char)
    (args' : List (List Char)) (m' : MonitorArgs) : Prop :=
  ∃ s, m' = m.apply s ∧ ∀ ss, CommandLine nextchar' args' ss → CommandLine nextchar args (s :: ss)

theorem getoptLetter_asks {c : Char} {cs : List Char}
    (h : getoptLetter c cs args = (g, nextchar', args')) (htake : m.take g = .ok m') :
    Asks m (c :: cs) args nextchar' args' m' := by
  rcases optstring_cases c with hnone | rfl | ⟨setting, hc⟩
  · unfold getoptLetter at h
    rw [hnone] at h
    cases h
    cases htake
  · have hflag : getoptLetter 'b' cs args = (.option 'b' [], cs, args) := rfl
    rw [hflag] at h
    cases h
    cases htake
    exact ⟨.batch, rfl, fun ss hrest => .batch hrest⟩
  · unfold getoptLetter at h
    rw [hc.optstring] at h
    cases cs with
    | cons d v =>
        cases h
        rw [hc.take] at htake
        cases htake
        exact ⟨setting (d :: v), rfl, fun ss hrest => .attached hc hrest⟩
    | nil =>
        cases args with
        | nil =>
            cases h
            cases htake
        | cons v args =>
            cases h
            rw [hc.take] at htake
            cases htake
            exact ⟨setting v, rfl, fun ss hrest => .separate hc hrest⟩

theorem getopt_asks (h : getopt nextchar args = some (g, nextchar', args'))
    (htake : m.take g = .ok m') : Asks m nextchar args nextchar' args' m' := by
  unfold getopt at h
  split at h
  case h_1 c cs => exact getoptLetter_asks (Option.some.inj h) htake
  case h_2 => cases h
  case h_3 arg args =>
    split at h
    · cases h
    · rename_i c cs _
      rcases getoptLetter_asks (Option.some.inj h) htake with ⟨s, hm, hrest⟩
      exact ⟨s, hm, fun ss hss => .options (hrest ss hss)⟩
    · rename_i hend hoption
      cases h
      cases htake
      refine ⟨.image arg, rfl, fun ss hrest => .operand ?_ hrest⟩
      -- neither the end of the options nor an option
      cases arg with
      | nil => exact .inr (fun h => by cases h)
      | cons c cs =>
          by_cases hc : c = '-'
          · subst hc
            cases cs with
            | nil => exact .inl rfl
            | cons d ds => exact absurd rfl (hoption d ds)
          · exact .inr fun hhead => hc (Option.some.inj hhead)

/-- Where `getopt` ends. -/
theorem getopt_none (h : getopt nextchar args = none) : CommandLine nextchar args [] := by
  unfold getopt at h
  split at h
  case h_1 => cases h
  case h_2 => exact .nil
  case h_3 arg args =>
    split at h
    · exact .endOfOptions args
    · cases h
    · cases h

/-! ## All of them -/

theorem parseLoop_end (h : getopt nextchar args = none) : parseLoop m nextchar args = .ok m := by
  rw [parseLoop]
  split
  · rfl
  · rename_i hsome
    rw [h] at hsome
    cases hsome

theorem parseLoop_next (h : getopt nextchar args = some (g, nextchar', args'))
    (htake : m.take g = .ok m') : parseLoop m nextchar args = parseLoop m' nextchar' args' := by
  rw [parseLoop]
  split
  · rename_i hnone
    rw [h] at hnone
    cases hnone
  · rename_i hsome
    rw [h] at hsome
    cases hsome
    rw [htake]

theorem parseLoop_error {e : Fault} (h : getopt nextchar args = some (g, nextchar', args'))
    (htake : m.take g = .error e) : parseLoop m nextchar args = .error e := by
  rw [parseLoop]
  split
  · rename_i hnone
    rw [h] at hnone
    cases hnone
  · rename_i hsome
    rw [h] at hsome
    cases hsome
    rw [htake]

/-- What the next call returns is all that matters. -/
theorem parseLoop_congr (h : getopt nextchar args = getopt nextchar' args') :
    parseLoop m nextchar args = parseLoop m nextchar' args' := by
  cases hcall : getopt nextchar' args' with
  | none => rw [parseLoop_end hcall, parseLoop_end (h.trans hcall)]
  | some call =>
      rcases call with ⟨g, cs, as⟩
      cases htake : m.take g with
      | error e => rw [parseLoop_error hcall htake, parseLoop_error (h.trans hcall) htake]
      | ok m₁ => rw [parseLoop_next hcall htake, parseLoop_next (h.trans hcall) htake]

end Call

theorem CommandLine.ne_dash {c : Char} {cs : List Char} {args : List (List Char)}
    {ss : List Setting} (h : CommandLine (c :: cs) args ss) : c ≠ '-' := by
  cases h with
  | batch _ => decide
  | attached hc _ => cases hc <;> decide
  | separate hc _ => cases hc <;> decide

/-- By induction on the calls of `getopt`. -/
theorem commandLine_of_parseLoop {m m' : MonitorArgs} {nextchar : List Char}
    {args : List (List Char)} (h : parseLoop m nextchar args = .ok m') :
    ∃ ss, CommandLine nextchar args ss ∧ m' = ss.foldl MonitorArgs.apply m := by
  induction m, nextchar, args using parseLoop.induct with
  | case1 m nextchar args hend =>
      rw [parseLoop_end hend] at h
      cases h
      exact ⟨[], getopt_none hend, rfl⟩
  | case2 m nextchar args g nextchar' args' hcall e htake =>
      rw [parseLoop_error hcall htake] at h
      cases h
  | case3 m nextchar args g nextchar' args' hcall m₁ htake ih =>
      rw [parseLoop_next hcall htake] at h
      rcases ih h with ⟨ss, hrest, rfl⟩
      rcases getopt_asks hcall htake with ⟨s, rfl, hfirst⟩
      exact ⟨s :: ss, hfirst ss hrest, rfl⟩

/-- By induction on the command line. -/
theorem parseLoop_of_commandLine {nextchar : List Char} {args : List (List Char)}
    {ss : List Setting} (h : CommandLine nextchar args ss) (m : MonitorArgs) :
    parseLoop m nextchar args = .ok (ss.foldl MonitorArgs.apply m) := by
  induction h generalizing m with
  | nil => exact parseLoop_end rfl
  | endOfOptions args => exact parseLoop_end rfl
  | @operand arg args ss harg _ ih =>
      have hcall : getopt [] (arg :: args) = some (.nonOption arg, [], args) := by
        rcases harg with rfl | hhead
        · rfl
        · cases arg with
          | nil => rfl
          | cons c cs =>
              have hc : c ≠ '-' := fun h => hhead (by rw [h]; rfl)
              simp only [getopt]
              split <;> simp_all
      exact (parseLoop_next hcall rfl).trans (ih _)
  | @options c cs args ss hrest ih =>
      have hc : c ≠ '-' := hrest.ne_dash
      have hcall : getopt [] (('-' :: c :: cs) :: args) = getopt (c :: cs) args := by
        simp only [getopt]
        split <;> simp_all
      exact (parseLoop_congr hcall).trans (ih m)
  | batch hrest ih => exact (parseLoop_next rfl rfl).trans (ih _)
  | @attached c d v args ss setting hc hrest ih =>
      have hcall : getopt (c :: d :: v) args = some (.option c (d :: v), [], args) := by
        rw [getopt, getoptLetter, hc.optstring]
      exact (parseLoop_next hcall (hc.take m _)).trans (ih _)
  | @separate c v args ss setting hc hrest ih =>
      have hcall : getopt [c] (v :: args) = some (.option c v, [], args) := by
        rw [getopt, getoptLetter, hc.optstring]
      exact (parseLoop_next hcall (hc.take m _)).trans (ih _)

/-- `parse_args` accepts the command lines and no other arguments, and does what they ask for. -/
theorem parseArgs_ok_iff (args : List (List Char)) (m : MonitorArgs) :
    parseArgs args = .ok m ↔
      ∃ ss, CommandLine [] args ss ∧ m = ss.foldl MonitorArgs.apply .initial := by
  constructor
  · exact commandLine_of_parseLoop
  · rintro ⟨ss, hargs, rfl⟩
    exact parseLoop_of_commandLine hargs _

/-- `nemu -bl log img1 -ax img2` -/
example :
    parseArgs [['-', 'b', 'l'], ['l', 'o', 'g'], ['i', '1'], ['-', 'a', 'x'], ['i', '2']] =
      .ok ⟨['x'], some ['l', 'o', 'g'], none, some ['i', '1'], true⟩ :=
  parseLoop_of_commandLine
    (.options (.batch (.separate .logFile (.operand (.inr (by decide))
      (.options (.attached .mainargs (.operand (.inr (by decide)) .nil))))))) _

end Nemu

import Spolks.Sockcore.Address

/-!
# `lab3/main.c` and `lab4/main.c`: the options

`getopt` of the C library hands out the options one by one and puts the arguments that are
no options behind them, so options may stand anywhere before `--`. The loop of `main`
stores them; a variable that no option sets keeps the indeterminate value it was born with.
-/

namespace Spolks.Transfer

open Sockcore

/-! ## `getopt` -/

/-- What a call of `getopt` returns, with `optarg`. -/
structure Opt where
  letter : Char
  optarg : Option CString

/-- Whether an option takes an argument; `none` when it is unknown. -/
def takesArgument (c : Char) : List Char → Option Bool
  | [] => none
  | o :: optstring =>
    if c = ':' ∨ c = ';' then none
    else if o = c then some (optstring.head? == some ':')
    else takesArgument c optstring

/-- The options that one argument holds behind its `-`, and the option at its end that is to
take the next argument. -/
def letters (optstring : List Char) : CString → List Opt × Option Char
  | [] => ([], none)
  | b :: bs =>
    let c := Char.ofNat b.toNat
    match takesArgument c optstring with
    | none => (⟨'?', none⟩ :: (letters optstring bs).1, (letters optstring bs).2)
    | some false => (⟨c, none⟩ :: (letters optstring bs).1, (letters optstring bs).2)
    | some true => if bs = [] then ([], some c) else ([⟨c, some bs⟩], none)

/-- All that `getopt` returns before `-1`; `waiting` is the option whose argument comes
next. -/
def getopt (optstring : List Char) : Option Char → List CString → List Opt
  | some _, [] => [⟨'?', none⟩]
  | some c, arg :: args => ⟨c, some arg⟩ :: getopt optstring none args
  | none, [] => []
  | none, arg :: args =>
    -- 45 is the code of '-'
    if arg = [45, 45] then []
    else if arg.head? = some 45 ∧ arg.tail ≠ [] then
      (letters optstring arg.tail).1 ++ getopt optstring (letters optstring arg.tail).2 args
    else getopt optstring none args

/-- An option that takes an argument comes with one. -/
theorem letters_optarg {optstring : List Char} (bs : CString) :
    ∀ opt ∈ (letters optstring bs).1, opt.letter ≠ '?' →
      takesArgument opt.letter optstring = some true → opt.optarg.isSome = true := by
  induction bs with
  | nil =>
    intro opt hopt
    cases hopt
  | cons b bs ih =>
    intro opt hopt hknown htakes
    unfold letters at hopt
    simp only at hopt
    cases hletter : takesArgument (Char.ofNat b.toNat) optstring with
    | none =>
      rw [hletter] at hopt
      rcases List.mem_cons.mp hopt with rfl | hopt
      · exact absurd rfl hknown
      · exact ih opt hopt hknown htakes
    | some takes =>
      rw [hletter] at hopt
      cases takes with
      | false =>
        rcases List.mem_cons.mp hopt with rfl | hopt
        · rw [hletter] at htakes
          cases htakes
        · exact ih opt hopt hknown htakes
      | true =>
        simp only at hopt
        split at hopt
        · cases hopt
        · rw [List.mem_singleton.mp hopt]
          rfl

theorem getopt_optarg {optstring : List Char} {args : List CString} (waiting : Option Char) :
    ∀ opt ∈ getopt optstring waiting args, opt.letter ≠ '?' →
      takesArgument opt.letter optstring = some true → opt.optarg.isSome = true := by
  induction args generalizing waiting with
  | nil =>
    intro opt hopt hknown
    cases waiting with
    | none => cases hopt
    | some c => exact absurd (List.mem_singleton.mp hopt ▸ rfl) hknown
  | cons arg args ih =>
    intro opt hopt hknown htakes
    cases waiting with
    | some c =>
      rcases List.mem_cons.mp hopt with rfl | hopt
      · rfl
      · exact ih none opt hopt hknown htakes
    | none =>
      unfold getopt at hopt
      split at hopt
      · cases hopt
      · split at hopt
        · rcases List.mem_append.mp hopt with hopt | hopt
          · exact letters_optarg arg.tail opt hopt hknown htakes
          · exact ih _ opt hopt hknown htakes
        · exact ih none opt hopt hknown htakes

/-! ## The loop of `main` -/

/-- The variables of `main` that the options set. -/
structure Options where
  listen : Bool
  fileDirection : Int
  fileName : Option CString
  address : Option CString
  port : Option CString

namespace Options

def set (o : Options) (opt : Opt) : Options :=
  match opt.letter with
  | 'f' => { o with fileName := opt.optarg }
  | 'a' => { o with address := opt.optarg }
  | 'p' => { o with port := opt.optarg }
  | 'l' => { o with listen := true }
  | 's' => { o with fileDirection := -1 }
  | 'r' => { o with fileDirection := 1 }
  | _ => o

/-- The values that uninitialised variables of `main` happen to have. -/
structure Indeterminate where
  fileName : Option CString
  address : Option CString
  port : Option CString
  listener : Int
  hostAddr : SockAddrIn
  clientAddr : SockAddrIn

def initial (i : Indeterminate) : Options where
  listen := false
  fileDirection := 0
  fileName := i.fileName
  address := i.address
  port := i.port

def optstring : List Char := ['l', 's', 'r', 'a', ':', 'p', ':', 'f', ':']

/-- The variables after the loop. -/
def read (i : Indeterminate) (argv : List CString) : Options :=
  (getopt optstring none argv.tail).foldl set (initial i)

/-- A direction comes from an argument. -/
theorem two_le_of_fileDirection {i : Indeterminate} {argv : List CString}
    (h : (read i argv).fileDirection ≠ 0) : 2 ≤ argv.length := by
  cases argv with
  | nil => exact absurd rfl h
  | cons program args =>
    cases args with
    | nil => exact absurd rfl h
    | cons arg args => exact Nat.le_add_left 2 args.length

/-! ## What an option leaves -/

/-- An option with this letter is among the arguments. -/
def Given (c : Char) (argv : List CString) : Prop :=
  ∃ opt ∈ getopt optstring none argv.tail, opt.letter = c

instance (c : Char) (argv : List CString) : Decidable (Given c argv) :=
  inferInstanceAs (Decidable (∃ opt ∈ getopt optstring none argv.tail, opt.letter = c))

section

/- A variable `g` that the options with the letter `c` set, and no other option. -/
variable {g : Options → Option CString} {c : Char}
  (hset : ∀ o opt, g (o.set opt) = if opt.letter = c then opt.optarg else g o)

include hset

/-- With an option that sets it, the variable does not depend on what it was. -/
theorem foldl_set_congr {opts : List Opt} {o o' : Options}
    (h : (∃ opt ∈ opts, opt.letter = c) ∨ g o = g o') :
    g (opts.foldl set o) = g (opts.foldl set o') := by
  induction opts generalizing o o' with
  | nil =>
    rcases h with ⟨opt, hopt, -⟩ | h
    · cases hopt
    · exact h
  | cons opt opts ih =>
    apply ih
    rw [hset, hset]
    by_cases hletter : opt.letter = c
    · exact Or.inr (by rw [if_pos hletter, if_pos hletter])
    · rw [if_neg hletter, if_neg hletter]
      rcases h with ⟨opt', hopt, hc⟩ | h
      · rcases List.mem_cons.mp hopt with rfl | hopt
        · exact absurd hc hletter
        · exact Or.inl ⟨opt', hopt, hc⟩
      · exact Or.inr h

theorem foldl_set_isSome {opts : List Opt} {o : Options}
    (hsome : ∀ opt ∈ opts, opt.letter = c → opt.optarg.isSome = true)
    (h : (∃ opt ∈ opts, opt.letter = c) ∨ (g o).isSome = true) :
    (g (opts.foldl set o)).isSome = true := by
  induction opts generalizing o with
  | nil =>
    rcases h with ⟨opt, hopt, -⟩ | h
    · cases hopt
    · exact h
  | cons opt opts ih =>
    apply ih (fun opt' hopt => hsome opt' (List.mem_cons_of_mem _ hopt))
    rw [hset]
    by_cases hletter : opt.letter = c
    · rw [if_pos hletter]
      exact Or.inr (hsome opt List.mem_cons_self hletter)
    · rw [if_neg hletter]
      rcases h with ⟨opt', hopt, hc⟩ | h
      · rcases List.mem_cons.mp hopt with rfl | hopt
        · exact absurd hc hletter
        · exact Or.inl ⟨opt', hopt, hc⟩
      · exact Or.inr h

end

theorem set_fileName (o : Options) (opt : Opt) :
    (o.set opt).fileName = if opt.letter = 'f' then opt.optarg else o.fileName := by
  unfold set
  split <;> simp_all

theorem set_port (o : Options) (opt : Opt) :
    (o.set opt).port = if opt.letter = 'p' then opt.optarg else o.port := by
  unfold set
  split <;> simp_all

theorem set_listen (o : Options) (opt : Opt) :
    (o.set opt).listen = (o.listen || opt.letter == 'l') := by
  unfold set
  split <;> simp_all

theorem set_fileDirection (o o' : Options) (opt : Opt) (h : o.fileDirection = o'.fileDirection) :
    (o.set opt).fileDirection = (o'.set opt).fileDirection := by
  unfold set
  split <;> simp_all

section

variable {argv : List CString}

theorem read_fileName_eq (h : Given 'f' argv) (i i' : Indeterminate) :
    (read i argv).fileName = (read i' argv).fileName :=
  foldl_set_congr set_fileName (Or.inl h)

theorem read_port_eq (h : Given 'p' argv) (i i' : Indeterminate) :
    (read i argv).port = (read i' argv).port :=
  foldl_set_congr set_port (Or.inl h)

/-- A file name that is given is not `NULL`. -/
theorem read_fileName_isSome (h : Given 'f' argv) (i : Indeterminate) :
    (read i argv).fileName.isSome = true := by
  refine foldl_set_isSome set_fileName (fun opt hopt hletter => ?_) (Or.inl h)
  apply getopt_optarg none opt hopt
  · rw [hletter]
    decide
  · rw [hletter]
    decide

theorem foldl_set_listen (opts : List Opt) (o : Options) :
    (opts.foldl set o).listen = true ↔ o.listen = true ∨ ∃ opt ∈ opts, opt.letter = 'l' := by
  induction opts generalizing o with
  | nil => simp
  | cons opt opts ih =>
    rw [List.foldl_cons, ih, set_listen]
    simp [or_assoc]

theorem read_listen_iff (i : Indeterminate) : (read i argv).listen = true ↔ Given 'l' argv := by
  unfold read Given
  rw [foldl_set_listen]
  simp [initial]

theorem read_fileDirection_eq (i i' : Indeterminate) (argv : List CString) :
    (read i argv).fileDirection = (read i' argv).fileDirection := by
  have key : ∀ (opts : List Opt) (o o' : Options), o.fileDirection = o'.fileDirection →
      (opts.foldl set o).fileDirection = (opts.foldl set o').fileDirection := by
    intro opts
    induction opts with
    | nil => exact fun _ _ h => h
    | cons opt opts ih => exact fun o o' h => ih _ _ (set_fileDirection o o' opt h)
  exact key _ _ _ rfl

end

end Options

end Spolks.Transfer

import Newsys.Kern.Errno
import Newsys.Lib.Cstr
import Newsys.Libc.Vfprintf

/- Output into a string (lib/stdio/vsnprintf.c, and `__libc_putc_str` of lib/stdio/putget.c). -/
namespace Libc
open Bytes Cstr Ints Kern Cmds Cmd List

/- The same output on every stream -/

section Streams
variable {σ α β ι : Type} {fputc : Byte → PutM σ Unit}

def Emits (fputc : Byte → PutM σ Unit) (m : PutM σ α) (m' : PutM (List Byte) α) : Prop :=
  ∀ s out, (m' out).1 ≠ .err () ∧ ∃ bs, (m' out).2 = out ++ bs ∧ m s = ((m' out).1, (emit fputc bs s).2)

theorem emit_total (total : Total fputc) (bs : List Byte) (s : σ) : (emit fputc bs s).1 = .ok () := by
  induction bs generalizing s with
  | nil => rfl
  | cons c bs ih =>
    have first := total c s
    change (Cmd.bind (fputc c) (fun _ => emit fputc bs) s).1 = _
    unfold Cmd.bind
    rcases run : fputc c s with ⟨_ | _ | _, t⟩
    · exact ih t
    · rw [run] at first
      cases first
    · rw [run] at first
      cases first

theorem emit_both (total : Total fputc) (bs bs' : List Byte) (s : σ) :
    (emit fputc (bs ++ bs') s).2 = (emit fputc bs' (emit fputc bs s).2).2 := by
  have first := emit_total total bs s
  rw [emit_append]
  change (Cmd.bind (emit fputc bs) (fun _ => emit fputc bs') s).2 = _
  unfold Cmd.bind
  rcases run : emit fputc bs s with ⟨_ | _ | _, t⟩
  · rfl
  · rw [run] at first
    cases first
  · rw [run] at first
    cases first

variable {m : PutM σ α} {m' : PutM (List Byte) α}

theorem emits_of_run (fine : r ≠ .err ())
    (here : ∀ s, m s = (r, s)) (there : ∀ out, m' out = (r, out)) : Emits fputc m m' := by
  intro s out
  refine ⟨by rwa [there], [], ?_, ?_⟩
  · rw [there, append_nil]
  · rw [here, there]
    rfl

theorem emits_pure (a : α) : Emits fputc (pure a) (pure a) := emits_of_run (by simp) (fun _ => rfl) fun _ => rfl

theorem emits_crash : Emits fputc (crash : PutM σ α) crash := emits_of_run (by simp) (fun _ => rfl) fun _ => rfl

theorem emits_bind (total : Total fputc)
    (first : Emits fputc m m') (next : ∀ a, Emits fputc (f a) (f' a)) :
    Emits fputc (m >>= f) (m' >>= f') := by
  intro s out
  obtain ⟨fine, bs, text, run⟩ := first s out
  change (Cmd.bind m' f' out).1 ≠ _ ∧ ∃ bs, (Cmd.bind m' f' out).2 = _ ∧ Cmd.bind m f s = ((Cmd.bind m' f' out).1, _)
  unfold Cmd.bind
  rw [run]
  rcases run' : m' out with ⟨a | _ | _, t⟩
  · rw [run'] at text
    obtain ⟨fine', bs', text', run''⟩ := next a (emit fputc bs s).2 t
    refine ⟨fine', bs ++ bs', ?_, ?_⟩
    · rw [← append_assoc, ← text]
      exact text'
    · rw [emit_both total]
      exact run''
  · rw [run'] at fine
    exact absurd rfl fine
  · rw [run'] at text
    exact ⟨by simp, bs, text, rfl⟩

theorem emits_fputc (total : Total fputc) (c : Byte) : Emits fputc (fputc c) (collect c) := by
  intro s out
  refine ⟨fun eq => ?_, [c], rfl, ?_⟩
  · cases eq
  have one : emit fputc [c] = fputc c := by
    change (fputc c >>= fun _ => pure ()) = fputc c
    rw [bind_pure_unit]
  rw [one]
  exact Prod.ext (total c s) rfl

theorem emits_forEach (total : Total fputc) (is : List ι)
    (round : ∀ i, Emits fputc (g i) (g' i)) : Emits fputc (forEach is g) (forEach is g') := by
  induction is with
  | nil => exact emits_pure ()
  | cons i rest ih => exact emits_bind total (round i) fun _ => ih

variable {p : Prop}

theorem emits_ite [Decidable p] (yes : Emits fputc m m') (no : Emits fputc m₂ m₂') :
    Emits fputc (if p then m else m₂) (if p then m' else m₂') := by
  split
  · exact yes
  · exact no

section
variable (total : Total fputc)
include total

theorem emits_emit (bs : List Byte) : Emits fputc (emit fputc bs) (emit collect bs) :=
  emits_forEach total bs (emits_fputc total)

theorem emits_putMany (n : Int) (c : Byte) :
    Emits fputc (putMany fputc n c) (putMany collect n c) :=
  emits_forEach total _ (emits_fputc total)

theorem emits_blanks {_ : Decidable p} (n : Int) (c : Byte) :
    Emits fputc (if p then putMany fputc n c else pure ()) (if p then putMany collect n c else pure ()) :=
  emits_ite (emits_putMany total n c) (emits_pure ())

theorem emits_pad {_ : Decidable p} {n : Int} {c : Byte} {k : PUnit → PutM σ α}
    {k' : PUnit → PutM (List Byte) α} (rest : ∀ u, Emits fputc (k u) (k' u)) :
    Emits fputc (if p then putMany fputc n c >>= k else k ⟨⟩) (if p then putMany collect n c >>= k' else k' ⟨⟩) :=
  emits_ite (emits_bind total (emits_putMany total n c) rest) (rest ⟨⟩)

theorem emits_putnFrom (base v i : Nat) : ∀ z,
    Emits fputc (putnFrom fputc base v i z) (putnFrom collect base v i z) := by
  induction i with
  | zero => exact fun _ => emits_pure ()
  | succ i ih =>
    intro z
    rw [putnFrom, putnFrom]
    exact emits_ite (ih z) (emits_bind total (emits_fputc total _) fun _ => ih true)

theorem emits_fmtputs (fmt : Format) (str : Option (List Byte)) :
    Emits fputc (fmtputs fputc fmt str) (fmtputs collect fmt str) := by
  refine emits_ite emits_crash ?_
  refine emits_pad total fun _ => ?_
  refine emits_bind total (emits_emit total _) fun _ => ?_
  exact emits_blanks total _ _

theorem emits_fmtputn (fmt : Format) (v : Nat) (neg : Bool) :
    Emits fputc (fmtputn fputc fmt v neg) (fmtputn collect fmt v neg) := by
  have zeros : ∀ c, Emits fputc (do let _ ← attempt (fputc c)) (do let _ ← attempt (collect c)) := by
    intro c
    rw [attempt_fputc total, attempt_fputc total_collect]
    exact emits_fputc total c
  unfold fmtputn
  refine emits_pad total fun _ => ?_
  refine emits_bind total (emits_emit total _) fun _ => ?_
  refine emits_pad total fun _ => ?_
  refine emits_bind total (emits_forEach total _ zeros) fun _ => ?_
  refine emits_bind total (emits_putnFrom total _ _ _ _) fun _ => ?_
  exact emits_blanks total _ _

end

theorem emits_vaNum (ap : List Arg) : Emits fputc (vaNum ap) (vaNum ap) := by
  rcases ap with _ | ⟨_ | _, ap⟩
  · exact emits_crash
  · exact emits_pure _
  · exact emits_crash

theorem emits_vaStr (ap : List Arg) : Emits fputc (vaStr ap) (vaStr ap) := by
  rcases ap with _ | ⟨_ | _, ap⟩
  · exact emits_crash
  · exact emits_crash
  · exact emits_pure _

theorem emits_convertNum (total : Total fputc) (m : Machine) (fmt : Format) (ap : List Arg) :
    Emits fputc (convertNum fputc m fmt ap) (convertNum collect m fmt ap) := by
  unfold convertNum
  cases argBits m fmt.size with
  | none => exact emits_crash
  | some bits =>
    have one : ∀ (ap : List Arg) (v : Nat) (neg : Bool), Emits fputc (fmtputn fputc fmt v neg >>= fun _ => pure ap)
        (fmtputn collect fmt v neg >>= fun _ => pure ap) := fun ap v neg =>
      emits_bind total (emits_fmtputn total fmt v neg) fun _ => emits_pure ap
    refine emits_bind total (emits_vaNum ap) fun ⟨v, ap⟩ => ?_
    exact emits_ite (emits_ite (one ap _ _) (one ap _ _)) (one ap _ _)

theorem emits_convert (total : Total fputc) (m : Machine) (strerror : List Byte) (fmt : Format) (c : Byte)
    (ap : List Arg) : Emits fputc (convert fputc m strerror fmt c ap) (convert collect m strerror fmt c ap) := by
  unfold convert
  refine emits_ite (emits_bind total (emits_fmtputs total _ _) fun _ => emits_pure _) ?_
  refine emits_ite (emits_bind total (emits_vaStr ap) fun _ => ?_) ?_
  · exact emits_bind total (emits_fmtputs total _ _) fun _ => emits_pure _
  refine emits_ite (emits_bind total (emits_vaNum ap) fun _ => ?_) ?_
  · exact emits_bind total (emits_fputc total _) fun _ => emits_pure _
  iterate 5 refine emits_ite (emits_convertNum total m _ ap) ?_
  refine emits_bind total (emits_fputc total _) fun _ => emits_bind total (emits_fputc total _) fun _ => emits_pure _

theorem emits_vfprintf (total : Total fputc) (m : Machine) (strerror format : List Byte) (ap : List Arg) :
    Emits fputc (vfprintf fputc m strerror format ap) (vfprintf collect m strerror format ap) := by
  fun_induction vfprintf collect m strerror format ap with
  | case1 ap =>
    rw [vfprintf]
    exact emits_pure ()
  | case2 ap c cs plain ih =>
    rw [vfprintf, if_pos plain]
    exact emits_bind total (emits_fputc total c) fun _ => ih
  | case3 ap c cs sign twice ih =>
    rw [vfprintf, if_neg sign, if_pos twice]
    exact emits_bind total (emits_fputc total _) fun _ => ih
  | case4 ap c cs sign once fmt ends =>
    rw [vfprintf, if_neg sign, if_neg once]
    split
    · exact emits_bind total (emits_fputc total _) fun _ => emits_bind total (emits_fputc total _) fun _ => emits_crash
    · rename_i eq
      rw [ends] at eq
      cases eq
  | case5 ap c cs sign once fmt conv rest more ih =>
    rw [vfprintf, if_neg sign, if_neg once]
    split
    · rename_i eq
      rw [more] at eq
      cases eq
    · rename_i eq
      rw [more] at eq
      cases eq
      exact emits_bind total (emits_convert total m strerror _ _ ap) ih

end Streams

def Prints (m : Machine) (strerror format : List Byte) (ap : List Arg) (out : List Byte) : Prop :=
  ∀ (σ : Type) (fputc : Byte → PutM σ Unit), Total fputc → ∀ s, vfprintf fputc m strerror format ap s = emit fputc out s

theorem prints_iff (m : Machine) (strerror format : List Byte) (ap : List Arg) (out : List Byte) :
    Prints m strerror format ap out ↔ vfprintf collect m strerror format ap [] = (.ok (), out) := by
  constructor
  · intro prints
    rw [prints _ collect total_collect, emit_collect, nil_append]
  · intro run σ fputc total s
    obtain ⟨-, bs, text, run'⟩ := emits_vfprintf total m strerror format ap s []
    rw [run, nil_append] at text
    rw [run', run, ← text]
    exact Prod.ext (emit_total total out s).symm rfl

/- The stream of `vsnprintf` -/

structure Strout where
  str : Nat
  cap : Nat
  pos : Nat
  mem : Mem

/-- The position is a `size_t`, and so is an address. -/
def Strout.putc (m : Machine) (c : Byte) (f : Strout) : Strout :=
  { f with mem := if (f.pos + 1) % 2 ^ longBits m < f.cap then put f.mem ((f.str + f.pos) % 2 ^ longBits m) c else f.mem
           pos := (f.pos + 1) % 2 ^ longBits m }

def putcStr (m : Machine) (c : Byte) : PutM Strout Unit := modify (Strout.putc m c)

/-- What `vfprintf` returns is not looked at. -/
def vsnprintf (m : Machine) (strerror : List Byte) (str n : Nat) (format : List Byte) (ap : List Arg) :
    Cmd Errno Mem Int := fun mem =>
  if n = 0 then (.err Errno.EINVAL, mem)
  else
    match vfprintf (putcStr m) m strerror format ap ⟨str, n, 0, mem⟩ with
    | (.crash, f) => (.crash, f.mem)
    | (_, f) => (.ok (int f.pos), put f.mem (str + if f.pos < n then f.pos else n - 1) 0)

theorem total_putcStr (m : Machine) : Total (putcStr m) := fun _ _ => rfl

theorem emit_putcStr (m : Machine) (bs : List Byte) : ∀ {f : Strout}, f.pos + bs.length < 2 ^ longBits m →
    f.str + min f.cap (f.pos + bs.length + 1) ≤ 2 ^ longBits m → (emit (putcStr m) bs f).2 =
      { f with pos := f.pos + bs.length, mem := blit f.mem (f.str + f.pos) (bs.take (f.cap - 1 - f.pos)) } := by
  induction bs with
  | nil =>
    intro f _ _
    rw [take_nil, blit_nil]
    rfl
  | cons c bs ih =>
    intro f short room
    rw [length_cons] at short room
    have next : (f.pos + 1) % 2 ^ longBits m = f.pos + 1 := Nat.mod_eq_of_lt (by omega)
    change (emit (putcStr m) bs (f.putc m c)).2 = _
    by_cases fits : f.pos + 1 < f.cap
    · have step : f.putc m c = { f with pos := f.pos + 1, mem := put f.mem (f.str + f.pos) c } := by
        rw [Strout.putc, next, if_pos fits, Nat.mod_eq_of_lt (by omega)]
      have more : f.cap - 1 - f.pos = f.cap - 1 - (f.pos + 1) + 1 := by omega
      rw [step, ih (by dsimp only; omega) (by dsimp only; omega), more, take_succ_cons, blit_cons,
        length_cons]
      simp only [add_assoc, add_comm 1]
    · have step : f.putc m c = { f with pos := f.pos + 1 } := by
        rw [Strout.putc, next, if_neg fits]
      rw [step, ih (by dsimp only; omega) (by dsimp only; omega), show f.cap - 1 - f.pos = 0 by omega,
        show f.cap - 1 - (f.pos + 1) = 0 by omega, take_zero, take_zero, blit_nil, blit_nil, length_cons]
      simp only [add_assoc, add_comm 1]

section Call
variable {m : Machine} {strerror format : List Byte} {ap : List Arg} {out : List Byte}

theorem vsnprintf_run (prints : Prints m strerror format ap out) (mem : Mem) (str : Nat) (some : 1 ≤ n) :
    ∃ f, (emit (putcStr m) out ⟨str, n, 0, mem⟩).2 = f ∧ vsnprintf m strerror str n format ap mem =
      (.ok (int f.pos), put f.mem (str + if f.pos < n then f.pos else n - 1) 0) := by
  have done : emit (putcStr m) out ⟨str, n, 0, mem⟩ = (.ok (), _) :=
    Prod.ext (emit_total (total_putcStr m) out ⟨str, n, 0, mem⟩) rfl
  refine ⟨_, rfl, ?_⟩
  rw [vsnprintf, if_neg (by omega), prints _ _ (total_putcStr m), done]

/-- The output is cut off in front of the end of the buffer and counted as a whole, if and only if the count is an
    `int`. -/
theorem vsnprintf_exact_iff (prints : Prints m strerror format ap out) (mem : Mem) {str n : Nat} (some : 1 ≤ n)
    (size : n < 2 ^ longBits m) (room : str + min n (out.length + 1) ≤ 2 ^ longBits m) :
    vsnprintf m strerror str n format ap mem = (.ok out.length, strcpy mem str (out.take (n - 1))) ↔
      out.length < 2 ^ 31 := by
  have wide : 2 ^ 32 ≤ 2 ^ longBits m := Nat.pow_le_pow_right (by decide) (by cases m <;> decide)
  obtain ⟨f, eq, run⟩ := vsnprintf_run prints mem str some
  rw [run]
  constructor
  · intro same
    have value : int f.pos = out.length := Res.ok.inj (congrArg Prod.fst same)
    unfold int signed at value
    omega
  · intro short
    rw [emit_putcStr m out (by dsimp only; omega) (by dsimp only; omega)] at eq
    subst eq
    have value : int ((0 + out.length : Nat) : Int) = out.length := by
      unfold int signed
      omega
    have ends : (if 0 + out.length < n then 0 + out.length else n - 1) = (out.take (n - 1)).length := by
      rw [length_take]
      split <;> omega
    rw [value, ends]
    rfl

end Call

theorem vsnprintf_exact_iff_cut : vsnprintf .i386 [] 4096 3 [chr 'a', chr 'b', chr 'c', chr 'd'] [] zero =
    (.ok 4, strcpy zero 4096 [chr 'a', chr 'b']) ↔ 4 < 2 ^ 31 := by
  have prints : Prints .i386 [] [chr 'a', chr 'b', chr 'c', chr 'd'] [] [chr 'a', chr 'b', chr 'c', chr 'd'] :=
    (prints_iff ..).mpr (by simp [vfprintf]; rfl)
  exact vsnprintf_exact_iff prints zero (by decide) (by decide) (by decide)

def wrapFormat : List Byte := "%2147483647s%2147483647sxx".toList.map chr

section Wrap
variable {σ : Type} (fputc : Byte → PutM σ Unit)

theorem vfprintf_conv (m : Machine) (strerror : List Byte) (ap : List Arg)
    (once : cs.head? ≠ some (chr '%')) (parse : parseFormat cs = (fmt, conv :: rest)) :
    vfprintf fputc m strerror (chr '%' :: cs) ap =
      convert fputc m strerror fmt conv ap >>= fun ap => vfprintf fputc m strerror rest ap := by
  rw [vfprintf, if_neg (by simp), if_neg once]
  split
  · rename_i eq
    rw [parse] at eq
    cases eq
  · rename_i eq
    rw [parse] at eq
    cases eq
    rfl

theorem convert_blank (m : Machine) (strerror : List Byte) (ap : List Arg) {w : Nat} (pos : 0 < w)
    (small : w < 2 ^ 31) : convert fputc m strerror { plainFormat with width := w } (chr 's') (.str (some []) :: ap) =
      emit fputc (replicate w (chr ' ')) >>= fun _ => pure ap := by
  have wide : int w = w := by
    unfold int signed
    omega
  have not : chr 's' ≠ chr 'm' := by decide
  rw [convert, if_neg not, if_pos rfl]
  have text : fmtputs fputc { plainFormat with width := w } (some []) = emit fputc (replicate w (chr ' ')) := by
    have zero : int ((0 : Nat) : Int) = 0 := by decide
    simp only [fmtputs, plainFormat, Option.getD_some, length_nil, zero]
    simp [pos, wide, putMany, emit, forEach]
  simp only [vaStr, pure_bind, text]

end Wrap

theorem emit_wraps {bs : List Byte} (most : bs.length = 2 ^ 32 - 1) (c : Byte) :
    (emit (putcStr .i386) (bs ++ [c]) ⟨4096, 8, 0, zero⟩).2 =
      ⟨4096, 8, 0, put (blit zero 4096 (bs.take 7)) 4095 c⟩ := by
  have wide : longBits .i386 = 32 := rfl
  have before : (emit (putcStr .i386) bs ⟨4096, 8, 0, zero⟩).2 = ⟨4096, 8, 2 ^ 32 - 1, blit zero 4096 (bs.take 7)⟩ := by
    rw [emit_putcStr .i386 bs (by rw [most, wide]; decide) (by rw [most, wide]; decide), most]
    simp only [zero_add]
  have next : (2 ^ 32 - 1 + 1) % 2 ^ longBits .i386 = 0 := by decide
  have back : (4096 + (2 ^ 32 - 1)) % 2 ^ longBits .i386 = 4095 := by decide
  rw [emit_both (total_putcStr _), before]
  change Strout.putc .i386 c ⟨4096, 8, 2 ^ 32 - 1, blit zero 4096 (bs.take 7)⟩ = _
  rw [Strout.putc, next, back]
  rfl

def wrapArgs : List Arg := [.str (some []), .str (some [])]

/-- With an output of 2^32 characters the position comes to 0 again: the last character is stored in front of the
    buffer. -/
theorem vsnprintf_not_exact : ∃ out mem, Prints .i386 [] wrapFormat wrapArgs out ∧ out.length = 2 ^ 32 ∧
    vsnprintf .i386 [] 4096 8 wrapFormat wrapArgs zero = (.ok 0, mem) ∧ mem 4095 = chr 'x' ∧ mem 4096 = 0 := by
  have parse : parseFormat (wrapFormat.drop 1) = ({ plainFormat with width := (2147483647 : Nat) },
      chr 's' :: wrapFormat.drop 12) := by decide +kernel
  have parse' : parseFormat (wrapFormat.drop 13) = ({ plainFormat with width := (2147483647 : Nat) },
      [chr 's', chr 'x', chr 'x']) := by decide +kernel
  obtain ⟨blanks, eq⟩ : ∃ blanks, blanks = replicate 2147483647 (chr ' ') := ⟨_, rfl⟩
  have len : blanks.length = 2147483647 := by rw [eq, length_replicate]
  have prints : Prints .i386 [] wrapFormat wrapArgs (blanks ++ (blanks ++ [chr 'x', chr 'x'])) := by
    intro σ fputc total s
    have text : wrapFormat = chr '%' :: wrapFormat.drop 1 := by decide
    have text' : wrapFormat.drop 12 = chr '%' :: wrapFormat.drop 13 := by decide
    have last : vfprintf fputc .i386 [] [chr 'x', chr 'x'] [] = emit fputc [chr 'x', chr 'x'] := by
      rw [vfprintf, if_pos (by decide), vfprintf, if_pos (by decide), vfprintf]
      rfl
    rw [text, wrapArgs, vfprintf_conv fputc _ _ _ (by decide) parse, convert_blank fputc _ _ _ (by decide) (by decide),
      bind_assoc]
    simp only [pure_bind]
    rw [text', vfprintf_conv fputc _ _ _ (by decide) parse', convert_blank fputc _ _ _ (by decide) (by decide),
      bind_assoc]
    simp only [pure_bind]
    rw [← eq, last, emit_append, emit_append]
  obtain ⟨f, run, result⟩ := vsnprintf_run prints zero 4096 (n := 8) (by decide)
  have most : (blanks ++ (blanks ++ [chr 'x'])).length = 2 ^ 32 - 1 := by
    rw [length_append, length_append, len]
    rfl
  have parts : blanks ++ (blanks ++ [chr 'x', chr 'x']) = blanks ++ (blanks ++ [chr 'x']) ++ [chr 'x'] := by
    simp only [append_assoc, cons_append, nil_append]
  rw [parts, emit_wraps most] at run
  subst run
  have count : int ((0 : Nat) : Int) = 0 := by decide
  rw [count] at result
  refine ⟨_, _, prints, ?_, result, ?_, ?_⟩
  · have one : [chr 'x'].length = 1 := rfl
    rw [parts, length_append]
    omega
  · rfl
  · rfl

end Libc

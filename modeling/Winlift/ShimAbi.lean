import Winlift.Diagnostics

/-!
# The table of supported imports (`shim_abi.h`, `shim_abi.c`)

C strings are the lists of their bytes, without the terminating NUL.
-/

namespace Winlift

structure ShimImportEntry where
  /-- Matched case-insensitively. -/
  dllName : List UInt8
  /-- Matched case-sensitively. -/
  funcName : List UInt8
  shimSymbol : List UInt8
deriving DecidableEq, Repr

def entry (dllName funcName shimSymbol : String) : ShimImportEntry :=
  ⟨cBytes dllName, cBytes funcName, cBytes shimSymbol⟩

def gShimImports : List ShimImportEntry := [
  -- kernel32.dll
  entry "kernel32.dll" "DeleteCriticalSection" "shim_DeleteCriticalSection",
  entry "kernel32.dll" "EnterCriticalSection" "shim_EnterCriticalSection",
  entry "kernel32.dll" "LeaveCriticalSection" "shim_LeaveCriticalSection",
  entry "kernel32.dll" "InitializeCriticalSection" "shim_InitializeCriticalSection",
  entry "kernel32.dll" "FreeLibrary" "shim_FreeLibrary",
  entry "kernel32.dll" "GetLastError" "shim_GetLastError",
  entry "kernel32.dll" "SetLastError" "shim_SetLastError",
  entry "kernel32.dll" "GetModuleHandleA" "shim_GetModuleHandleA",
  entry "kernel32.dll" "LoadLibraryA" "shim_LoadLibraryA",
  entry "kernel32.dll" "GetProcAddress" "shim_GetProcAddress",
  entry "kernel32.dll" "SetUnhandledExceptionFilter" "shim_SetUnhandledExceptionFilter",
  entry "kernel32.dll" "Sleep" "shim_Sleep",
  entry "kernel32.dll" "TlsGetValue" "shim_TlsGetValue",
  entry "kernel32.dll" "VirtualProtect" "shim_VirtualProtect",
  entry "kernel32.dll" "VirtualQuery" "shim_VirtualQuery",
  entry "kernel32.dll" "ExitProcess" "shim_ExitProcess",
  entry "kernel32.dll" "GetStdHandle" "shim_GetStdHandle",
  entry "kernel32.dll" "CloseHandle" "shim_CloseHandle",
  entry "kernel32.dll" "WriteFile" "shim_WriteFile",
  entry "kernel32.dll" "ReadFile" "shim_ReadFile",
  entry "kernel32.dll" "CreateFileA" "shim_CreateFileA",
  entry "kernel32.dll" "GetProcessHeap" "shim_GetProcessHeap",
  entry "kernel32.dll" "HeapAlloc" "shim_HeapAlloc",
  entry "kernel32.dll" "HeapFree" "shim_HeapFree",
  entry "kernel32.dll" "HeapReAlloc" "shim_HeapReAlloc",
  entry "kernel32.dll" "GetCommandLineA" "shim_GetCommandLineA",
  entry "kernel32.dll" "GetEnvironmentStrings" "shim_GetEnvironmentStrings",
  entry "kernel32.dll" "GetEnvironmentStringsA" "shim_GetEnvironmentStrings",
  entry "kernel32.dll" "FreeEnvironmentStringsA" "shim_FreeEnvironmentStringsA",
  entry "kernel32.dll" "GetStartupInfoA" "shim_GetStartupInfoA",
  -- msvcrt.dll
  entry "msvcrt.dll" "__getmainargs" "shim_msvcrt_getmainargs",
  entry "msvcrt.dll" "__initenv" "shim_data___initenv",
  entry "msvcrt.dll" "__p__commode" "shim_msvcrt_p_commode",
  entry "msvcrt.dll" "__p__fmode" "shim_msvcrt_p_fmode",
  entry "msvcrt.dll" "__set_app_type" "shim_msvcrt_set_app_type",
  entry "msvcrt.dll" "__setusermatherr" "shim_msvcrt_setusermatherr",
  entry "msvcrt.dll" "_amsg_exit" "shim_msvcrt_amsg_exit",
  entry "msvcrt.dll" "_cexit" "shim_msvcrt_cexit",
  entry "msvcrt.dll" "_initterm" "shim_msvcrt_initterm",
  entry "msvcrt.dll" "_iob" "shim_iob",
  entry "msvcrt.dll" "_onexit" "shim_msvcrt_onexit",
  entry "msvcrt.dll" "abort" "shim_msvcrt_abort",
  entry "msvcrt.dll" "calloc" "shim_msvcrt_calloc",
  entry "msvcrt.dll" "exit" "shim_msvcrt_exit",
  entry "msvcrt.dll" "fprintf" "shim_msvcrt_fprintf",
  entry "msvcrt.dll" "free" "shim_msvcrt_free",
  entry "msvcrt.dll" "fwrite" "shim_msvcrt_fwrite",
  entry "msvcrt.dll" "malloc" "shim_msvcrt_malloc",
  entry "msvcrt.dll" "memcpy" "shim_msvcrt_memcpy",
  entry "msvcrt.dll" "realloc" "shim_msvcrt_realloc",
  entry "msvcrt.dll" "signal" "shim_msvcrt_signal",
  entry "msvcrt.dll" "strlen" "shim_msvcrt_strlen",
  entry "msvcrt.dll" "strncmp" "shim_msvcrt_strncmp",
  entry "msvcrt.dll" "vfprintf" "shim_msvcrt_vfprintf",
  entry "msvcrt.dll" "__p__iob" "shim_msvcrt_p_iob",
  entry "msvcrt.dll" "__p___initenv" "shim_msvcrt_p_initenv",
  entry "msvcrt.dll" "__p__acmdln" "shim_msvcrt_p_acmdln",
  entry "msvcrt.dll" "_ismbblead" "shim_msvcrt_ismbblead",
  entry "msvcrt.dll" "atexit" "shim_msvcrt_atexit",
  -- user32.dll
  entry "user32.dll" "MessageBoxA" "shim_MessageBoxA",
  entry "user32.dll" "RegisterClassA" "shim_RegisterClassA",
  entry "user32.dll" "CreateWindowExA" "shim_CreateWindowExA",
  entry "user32.dll" "ShowWindow" "shim_ShowWindow",
  entry "user32.dll" "UpdateWindow" "shim_UpdateWindow",
  entry "user32.dll" "DefWindowProcA" "shim_DefWindowProcA",
  entry "user32.dll" "GetMessageA" "shim_GetMessageA",
  entry "user32.dll" "TranslateMessage" "shim_TranslateMessage",
  entry "user32.dll" "DispatchMessageA" "shim_DispatchMessageA",
  -- comctl32.dll
  entry "COMCTL32.dll" "#17" "shim_InitCommonControls"]

def tolower (c : UInt8) : UInt8 := if 65 ≤ c ∧ c ≤ 90 then c + 32 else c

def ciStreq : List UInt8 → List UInt8 → Bool
  | a :: as, b :: bs => if tolower a ≠ tolower b then false else ciStreq as bs
  | [], [] => true
  | _, _ => false

def shimLookupImport (dllName funcName : List UInt8) : Option ShimImportEntry :=
  gShimImports.find? fun e => ciStreq e.dllName dllName && e.funcName == funcName

end Winlift

import LuckfoxPico.Shell.Quotes
import LuckfoxPico.Text.Replace

/-!
# Baking the WiFi credentials (`do_install:append` of the wpa-supplicant recipe)

bitbake pastes the three values into the text of the shell function. The function writes the
template with sed, which replaces one token after the other, or a placeholder file if a value is
empty.
-/

namespace Wifi

open Str Shell Sed

/-- The values of `LUCKFOX_WIFI_SSID`, `LUCKFOX_WIFI_PSK` and `LUCKFOX_WIFI_COUNTRY` as they are
pasted. -/
structure Credentials where
  ssid : Str
  psk : Str
  country : Str
  ssid_ne : ssid ≠ []
  psk_ne : psk ≠ []
  oneLine : '\n' ∉ ssid ++ psk ++ country

/-- What the build host decides: the shell's parameters, the extensions of its sed, and what becomes
of the file when a value holds code of the shell or of sed. -/
structure Host where
  param : Str → Str
  extension : Char → Str → Option Str
  runCode : Credentials → Option (List Str)

def countryTok : Str := "@@LUCKFOX_WIFI_COUNTRY@@".toList

def ssidTok : Str := "@@LUCKFOX_WIFI_SSID@@".toList

def pskTok : Str := "@@LUCKFOX_WIFI_PSK@@".toList

def countryKey : Str := "country=".toList

def ssidKey : Str := "    ssid=\"".toList

def pskKey : Str := "    psk=\"".toList

/-- The lines of the template in front of the country. -/
def templateHead : List Str :=
  ["# wpa_supplicant config for wlan0 — template, baked at build time.".toList,
    "#".toList,
    "# Credentials come from the Yocto build variables LUCKFOX_WIFI_SSID".toList,
    "# and LUCKFOX_WIFI_PSK (set those in conf/local.conf on the build".toList,
    "# host). If either variable is unset, do_install leaves this file".toList,
    "# as-is and prints a warning. In that case the user can still".toList,
    "# populate /etc/wpa_supplicant/wpa_supplicant-nl80211-wlan0.conf".toList,
    "# manually after flashing.".toList,
    "#".toList,
    "# The @@PLACEHOLDER@@ tokens are sed-replaced by the bbappend.".toList,
    [],
    "ctrl_interface=/var/run/wpa_supplicant".toList,
    "update_config=1".toList]

/-- `wpa_supplicant-nl80211-wlan0.conf.in`. -/
def template : List Str :=
  templateHead ++
    [countryKey ++ countryTok,
      [],
      "network=\x7b".toList,
      ssidKey ++ ssidTok ++ ['"'],
      pskKey ++ pskTok ++ ['"'],
      "    key_mgmt=WPA-PSK".toList,
      "    scan_ssid=1".toList,
      "\x7d".toList]

/-- The file of the `else` branch. -/
def placeholder : List Str :=
  ["# Placeholder wpa_supplicant config. Build with".toList,
    "#   LUCKFOX_WIFI_SSID = \"your-ssid\"".toList,
    "#   LUCKFOX_WIFI_PSK = \"your-psk\"".toList,
    "#   LUCKFOX_WIFI_COUNTRY = \"IE\"".toList,
    "# in conf/local.conf to have this replaced at image-build time.".toList,
    "ctrl_interface=/var/run/wpa_supplicant".toList,
    "update_config=1".toList,
    "country=00".toList]

/-- The command of one `-e` argument. -/
def expression (host : Host) (tok v : Str) : Command :=
  command host.extension tok (dquote host.param .plain (v ++ ['|', 'g']))

/-- One line of the template after the three commands, in their order. -/
def sedLine (country ssid psk : Str) (l : Str) : Str :=
  replaceAll pskTok psk (replaceAll ssidTok ssid (replaceAll countryTok country l))

/-- The file that `do_install` writes; `none` if it fails. -/
def bake (host : Host) (c : Credentials) : Option (List Str) :=
  if isCode true .plain c.ssid || isCode true .plain c.psk || isCode false .plain c.country then
    host.runCode c
  else if dquote host.param .plain c.ssid = [] || dquote host.param .plain c.psk = [] then
    some placeholder
  else
    match expression host countryTok c.country, expression host ssidTok c.ssid,
      expression host pskTok c.psk with
    | .replace country, .replace ssid, .replace psk =>
      some (template.map (sedLine country ssid psk))
    | .code, _, _ => host.runCode c
    | _, .code, _ => host.runCode c
    | _, _, .code => host.runCode c
    | _, _, _ => none

/-! ## The file that is meant -/

/-- The table of the tokens, in the order of the commands. -/
def Credentials.table (c : Credentials) : List (Str × Str) :=
  [(countryTok, c.country), (ssidTok, c.ssid), (pskTok, c.psk)]

/-- wpa_supplicant's rule for a quoted value: the text between the first and the last quote. -/
def quotedValue (l : Str) : Str :=
  ((l.dropWhile (· ≠ '"')).tail.rdropWhile (· ≠ '"')).dropLast

/-- The lines that start with a key. -/
def linesOf (key : Str) (file : List Str) : List Str := file.filter key.isPrefixOf

/-- No command alters the text that an earlier one inserts. -/
def Unaltered (host : Host) (c : Credentials) : Prop :=
  c.table.Pairwise fun earlier later => ∀ inserted rep,
    expression host earlier.1 earlier.2 = .replace inserted →
    expression host later.1 later.2 = .replace rep → replaceAll later.1 rep inserted = inserted

/-- The file is the template with the tokens replaced at once, it reads back as the three values,
every line without a token is the template's, and no command alters the text that an earlier one
inserts. -/
structure Faithful (host : Host) (c : Credentials) (file : List Str) : Prop where
  literal : file = template.map (replaceTokens c.table)
  ssid : (linesOf ssidKey file).map quotedValue = [c.ssid]
  psk : (linesOf pskKey file).map quotedValue = [c.psk]
  country : (linesOf countryKey file).map (List.drop countryKey.length) = [c.country]
  others : ∀ (i : Nat) (l : Str), template[i]? = some l → (∀ entry ∈ c.table, ¬ entry.1 <:+: l) →
    file[i]? = some l
  unaltered : Unaltered host c

/-- The file is written as it is meant. -/
def Baked (host : Host) (c : Credentials) : Prop :=
  ∃ file, bake host c = some file ∧ Faithful host c file

/-- No character of the text is special between double quotes or in a replacement. -/
def Plain (v : Str) : Prop :=
  (∀ ch ∈ v, ch ∉ ['"', '`', '\\', '|', '&']) ∧ NoExpansion v

/-- The values are plain, and no value holds the token of a later command, except for a token that
stands for itself. -/
structure Safe (c : Credentials) : Prop where
  ssid : Plain c.ssid
  psk : Plain c.psk
  country : Plain c.country
  ssid_psk : pskTok <:+: c.ssid → c.psk = pskTok
  country_ssid : ssidTok <:+: c.country → c.ssid = ssidTok
  country_psk : pskTok <:+: c.country → c.psk = pskTok

end Wifi

import ZondEngine.Model.Tls

/-!
# The suites a scan knows

The registry of cipher suites of `model/tls.rs`, and how suites, versions and interruptions are read back.
-/

namespace Zond

/-! ## Versions and interruptions -/

def TlsVersion.ALL : List TlsVersion := [ssl30, tls10, tls11, tls12, tls13]

def Text.toAsciiLowercase (text : Text) : Text := text.map Char.toLower

def TlsVersion.parse (text : Text) : Option TlsVersion :=
  let name := text.trim.toAsciiLowercase
  ALL.find? fun version => version.name.toAsciiLowercase == name

theorem TlsVersion.parse_name (version : TlsVersion) : parse version.name = some version := by
  cases version <;> decide +kernel

namespace Interruption

def ALL : List Interruption := [unanswered, stopped, fileLimit]

def name : Interruption → Text
  | unanswered => "unanswered"
  | stopped => "stopped"
  | fileLimit => "file-limit"

def fromName (name : Text) : Option Interruption := ALL.find? fun cause => cause.name == name

theorem fromName_name (cause : Interruption) : fromName cause.name = some cause := by cases cause <;> decide +kernel

end Interruption

/-! ## The registry -/

namespace CipherSuite

def suite (code : UInt16) (name : String) (kex : KeyExchange) (auth : Authentication) (cipher : BulkCipher)
    (mac : Mac) : CipherSuite :=
  ⟨code, name.toList, kex, auth, cipher, mac, false⟩

def exportSuite (code : UInt16) (name : String) (kex : KeyExchange) (auth : Authentication) (cipher : BulkCipher)
    (mac : Mac) : CipherSuite :=
  { suite code name kex auth cipher mac with «export» := true }

/-- Every suite a scan offers. -/
def ALL : List CipherSuite :=
  [suite 0x1302 "TLS_AES_256_GCM_SHA384" .negotiated .negotiated (.aesGcm 256) .aead,
   suite 0x1303 "TLS_CHACHA20_POLY1305_SHA256" .negotiated .negotiated .chaCha20Poly1305 .aead,
   suite 0x1301 "TLS_AES_128_GCM_SHA256" .negotiated .negotiated (.aesGcm 128) .aead,
   suite 0x1304 "TLS_AES_128_CCM_SHA256" .negotiated .negotiated (.aesCcm 128 false) .aead,
   suite 0x1305 "TLS_AES_128_CCM_8_SHA256" .negotiated .negotiated (.aesCcm 128 true) .aead,
   suite 0xC030 "TLS_ECDHE_RSA_WITH_AES_256_GCM_SHA384" .ecdhe .rsa (.aesGcm 256) .aead,
   suite 0xC02C "TLS_ECDHE_ECDSA_WITH_AES_256_GCM_SHA384" .ecdhe .ecdsa (.aesGcm 256) .aead,
   suite 0xC02F "TLS_ECDHE_RSA_WITH_AES_128_GCM_SHA256" .ecdhe .rsa (.aesGcm 128) .aead,
   suite 0xC02B "TLS_ECDHE_ECDSA_WITH_AES_128_GCM_SHA256" .ecdhe .ecdsa (.aesGcm 128) .aead,
   suite 0xCCA8 "TLS_ECDHE_RSA_WITH_CHACHA20_POLY1305_SHA256" .ecdhe .rsa .chaCha20Poly1305 .aead,
   suite 0xCCA9 "TLS_ECDHE_ECDSA_WITH_CHACHA20_POLY1305_SHA256" .ecdhe .ecdsa .chaCha20Poly1305 .aead,
   suite 0x009F "TLS_DHE_RSA_WITH_AES_256_GCM_SHA384" .dhe .rsa (.aesGcm 256) .aead,
   suite 0x009E "TLS_DHE_RSA_WITH_AES_128_GCM_SHA256" .dhe .rsa (.aesGcm 128) .aead,
   suite 0xCCAA "TLS_DHE_RSA_WITH_CHACHA20_POLY1305_SHA256" .dhe .rsa .chaCha20Poly1305 .aead,
   suite 0x009D "TLS_RSA_WITH_AES_256_GCM_SHA384" .rsa .rsa (.aesGcm 256) .aead,
   suite 0x009C "TLS_RSA_WITH_AES_128_GCM_SHA256" .rsa .rsa (.aesGcm 128) .aead,
   suite 0xC028 "TLS_ECDHE_RSA_WITH_AES_256_CBC_SHA384" .ecdhe .rsa (.aesCbc 256) .sha384,
   suite 0xC024 "TLS_ECDHE_ECDSA_WITH_AES_256_CBC_SHA384" .ecdhe .ecdsa (.aesCbc 256) .sha384,
   suite 0xC027 "TLS_ECDHE_RSA_WITH_AES_128_CBC_SHA256" .ecdhe .rsa (.aesCbc 128) .sha256,
   suite 0xC023 "TLS_ECDHE_ECDSA_WITH_AES_128_CBC_SHA256" .ecdhe .ecdsa (.aesCbc 128) .sha256,
   suite 0x006B "TLS_DHE_RSA_WITH_AES_256_CBC_SHA256" .dhe .rsa (.aesCbc 256) .sha256,
   suite 0x0067 "TLS_DHE_RSA_WITH_AES_128_CBC_SHA256" .dhe .rsa (.aesCbc 128) .sha256,
   suite 0x003D "TLS_RSA_WITH_AES_256_CBC_SHA256" .rsa .rsa (.aesCbc 256) .sha256,
   suite 0x003C "TLS_RSA_WITH_AES_128_CBC_SHA256" .rsa .rsa (.aesCbc 128) .sha256,
   suite 0x006A "TLS_DHE_DSS_WITH_AES_256_CBC_SHA256" .dhe .dss (.aesCbc 256) .sha256,
   suite 0x0040 "TLS_DHE_DSS_WITH_AES_128_CBC_SHA256" .dhe .dss (.aesCbc 128) .sha256,
   suite 0xC014 "TLS_ECDHE_RSA_WITH_AES_256_CBC_SHA" .ecdhe .rsa (.aesCbc 256) .sha1,
   suite 0xC00A "TLS_ECDHE_ECDSA_WITH_AES_256_CBC_SHA" .ecdhe .ecdsa (.aesCbc 256) .sha1,
   suite 0xC013 "TLS_ECDHE_RSA_WITH_AES_128_CBC_SHA" .ecdhe .rsa (.aesCbc 128) .sha1,
   suite 0xC009 "TLS_ECDHE_ECDSA_WITH_AES_128_CBC_SHA" .ecdhe .ecdsa (.aesCbc 128) .sha1,
   suite 0x0039 "TLS_DHE_RSA_WITH_AES_256_CBC_SHA" .dhe .rsa (.aesCbc 256) .sha1,
   suite 0x0033 "TLS_DHE_RSA_WITH_AES_128_CBC_SHA" .dhe .rsa (.aesCbc 128) .sha1,
   suite 0x0038 "TLS_DHE_DSS_WITH_AES_256_CBC_SHA" .dhe .dss (.aesCbc 256) .sha1,
   suite 0x0032 "TLS_DHE_DSS_WITH_AES_128_CBC_SHA" .dhe .dss (.aesCbc 128) .sha1,
   suite 0x0035 "TLS_RSA_WITH_AES_256_CBC_SHA" .rsa .rsa (.aesCbc 256) .sha1,
   suite 0x002F "TLS_RSA_WITH_AES_128_CBC_SHA" .rsa .rsa (.aesCbc 128) .sha1,
   suite 0xC00F "TLS_ECDH_RSA_WITH_AES_256_CBC_SHA" .ecdh .rsa (.aesCbc 256) .sha1,
   suite 0xC00E "TLS_ECDH_RSA_WITH_AES_128_CBC_SHA" .ecdh .rsa (.aesCbc 128) .sha1,
   suite 0xC005 "TLS_ECDH_ECDSA_WITH_AES_256_CBC_SHA" .ecdh .ecdsa (.aesCbc 256) .sha1,
   suite 0xC004 "TLS_ECDH_ECDSA_WITH_AES_128_CBC_SHA" .ecdh .ecdsa (.aesCbc 128) .sha1,
   suite 0x0088 "TLS_DHE_RSA_WITH_CAMELLIA_256_CBC_SHA" .dhe .rsa (.camelliaCbc 256) .sha1,
   suite 0x0084 "TLS_RSA_WITH_CAMELLIA_256_CBC_SHA" .rsa .rsa (.camelliaCbc 256) .sha1,
   suite 0x0045 "TLS_DHE_RSA_WITH_CAMELLIA_128_CBC_SHA" .dhe .rsa (.camelliaCbc 128) .sha1,
   suite 0x0041 "TLS_RSA_WITH_CAMELLIA_128_CBC_SHA" .rsa .rsa (.camelliaCbc 128) .sha1,
   suite 0x0096 "TLS_RSA_WITH_SEED_CBC_SHA" .rsa .rsa .seedCbc .sha1,
   suite 0xC012 "TLS_ECDHE_RSA_WITH_3DES_EDE_CBC_SHA" .ecdhe .rsa .tripleDes .sha1,
   suite 0xC008 "TLS_ECDHE_ECDSA_WITH_3DES_EDE_CBC_SHA" .ecdhe .ecdsa .tripleDes .sha1,
   suite 0x0016 "TLS_DHE_RSA_WITH_3DES_EDE_CBC_SHA" .dhe .rsa .tripleDes .sha1,
   suite 0x0013 "TLS_DHE_DSS_WITH_3DES_EDE_CBC_SHA" .dhe .dss .tripleDes .sha1,
   suite 0x000A "TLS_RSA_WITH_3DES_EDE_CBC_SHA" .rsa .rsa .tripleDes .sha1,
   suite 0xC00D "TLS_ECDH_RSA_WITH_3DES_EDE_CBC_SHA" .ecdh .rsa .tripleDes .sha1,
   suite 0x0007 "TLS_RSA_WITH_IDEA_CBC_SHA" .rsa .rsa .ideaCbc .sha1,
   suite 0xC011 "TLS_ECDHE_RSA_WITH_RC4_128_SHA" .ecdhe .rsa .rc4 .sha1,
   suite 0xC007 "TLS_ECDHE_ECDSA_WITH_RC4_128_SHA" .ecdhe .ecdsa .rc4 .sha1,
   suite 0x0005 "TLS_RSA_WITH_RC4_128_SHA" .rsa .rsa .rc4 .sha1,
   suite 0x0004 "TLS_RSA_WITH_RC4_128_MD5" .rsa .rsa .rc4 .md5,
   suite 0xC016 "TLS_ECDH_anon_WITH_RC4_128_SHA" .anonymous .anonymous .rc4 .sha1,
   suite 0x0018 "TLS_DH_anon_WITH_RC4_128_MD5" .anonymous .anonymous .rc4 .md5,
   suite 0x006D "TLS_DH_anon_WITH_AES_256_CBC_SHA256" .anonymous .anonymous (.aesCbc 256) .sha256,
   suite 0x006C "TLS_DH_anon_WITH_AES_128_CBC_SHA256" .anonymous .anonymous (.aesCbc 128) .sha256,
   suite 0x003A "TLS_DH_anon_WITH_AES_256_CBC_SHA" .anonymous .anonymous (.aesCbc 256) .sha1,
   suite 0x0034 "TLS_DH_anon_WITH_AES_128_CBC_SHA" .anonymous .anonymous (.aesCbc 128) .sha1,
   suite 0xC019 "TLS_ECDH_anon_WITH_AES_256_CBC_SHA" .anonymous .anonymous (.aesCbc 256) .sha1,
   suite 0xC018 "TLS_ECDH_anon_WITH_AES_128_CBC_SHA" .anonymous .anonymous (.aesCbc 128) .sha1,
   suite 0x001B "TLS_DH_anon_WITH_3DES_EDE_CBC_SHA" .anonymous .anonymous .tripleDes .sha1,
   suite 0xC017 "TLS_ECDH_anon_WITH_3DES_EDE_CBC_SHA" .anonymous .anonymous .tripleDes .sha1,
   suite 0x003B "TLS_RSA_WITH_NULL_SHA256" .rsa .rsa .null .sha256,
   suite 0x0002 "TLS_RSA_WITH_NULL_SHA" .rsa .rsa .null .sha1,
   suite 0x0001 "TLS_RSA_WITH_NULL_MD5" .rsa .rsa .null .md5,
   suite 0xC010 "TLS_ECDHE_RSA_WITH_NULL_SHA" .ecdhe .rsa .null .sha1,
   suite 0xC006 "TLS_ECDHE_ECDSA_WITH_NULL_SHA" .ecdhe .ecdsa .null .sha1,
   suite 0xC001 "TLS_ECDH_ECDSA_WITH_NULL_SHA" .ecdh .ecdsa .null .sha1,
   suite 0xC00B "TLS_ECDH_RSA_WITH_NULL_SHA" .ecdh .rsa .null .sha1,
   suite 0xC015 "TLS_ECDH_anon_WITH_NULL_SHA" .anonymous .anonymous .null .sha1,
   exportSuite 0x0003 "TLS_RSA_EXPORT_WITH_RC4_40_MD5" .rsa .rsa .rc4 .md5,
   exportSuite 0x0006 "TLS_RSA_EXPORT_WITH_RC2_CBC_40_MD5" .rsa .rsa .des .md5,
   exportSuite 0x0008 "TLS_RSA_EXPORT_WITH_DES40_CBC_SHA" .rsa .rsa .des .sha1,
   exportSuite 0x0014 "TLS_DHE_RSA_EXPORT_WITH_DES40_CBC_SHA" .dhe .rsa .des .sha1,
   exportSuite 0x0011 "TLS_DHE_DSS_EXPORT_WITH_DES40_CBC_SHA" .dhe .dss .des .sha1,
   exportSuite 0x0017 "TLS_DH_anon_EXPORT_WITH_RC4_40_MD5" .anonymous .anonymous .rc4 .md5,
   exportSuite 0x0019 "TLS_DH_anon_EXPORT_WITH_DES40_CBC_SHA" .anonymous .anonymous .des .sha1,
   suite 0x0009 "TLS_RSA_WITH_DES_CBC_SHA" .rsa .rsa .des .sha1,
   suite 0x0015 "TLS_DHE_RSA_WITH_DES_CBC_SHA" .dhe .rsa .des .sha1,
   suite 0x0012 "TLS_DHE_DSS_WITH_DES_CBC_SHA" .dhe .dss .des .sha1,
   suite 0x001A "TLS_DH_anon_WITH_DES_CBC_SHA" .anonymous .anonymous .des .sha1]

def fromCode (code : UInt16) : Option CipherSuite := ALL.find? fun suite => suite.code == code

theorem nodup_codes : (ALL.map CipherSuite.code).Nodup := by decide +kernel

theorem fromCode_code {suite : CipherSuite} (h : suite ∈ ALL) : fromCode suite.code = some suite := by
  cases hfind : fromCode suite.code with
  | none => exact absurd (List.find?_eq_none.mp hfind suite h) (by simp)
  | some found =>
    have hcode : found.code = suite.code := by simpa using List.find?_some hfind
    exact congrArg some (List.inj_on_of_nodup_map nodup_codes (List.mem_of_find?_eq_some hfind) h hcode)

end CipherSuite

end Zond
